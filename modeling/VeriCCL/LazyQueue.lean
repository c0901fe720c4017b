import VeriCCL.Kahn
import Mathlib.Data.List.MinMax
import Mathlib.Data.Prod.Lex
import Mathlib.Data.Finset.Sort

/-! # The least choice from a lazy queue

Items are placed on sites one at a time.  An item may be placed once its predecessors are,
not before its release and not before the frontier of the site.  The plain way
(`Problem.greedy`) scans all choices at every step and takes the one with the least key.

The lazy way keeps a group of waiting items for every site and a queue of group keys.  A
group holds its items in two heaps, those the frontier has not passed yet and those it has.
Keys in the queue may be out of date: an entry is looked at again when it comes to the
front, and is dropped if its version is old.  What justifies this is that a placement only
raises the keys of the others (`Lawful`); newly ready items may lower a key, so their groups
are entered again at once.  Heaps are sorted lists. -/
namespace VeriCCL.LazyQueue

variable {ε σ τ ι T K : Type} [LinearOrder T] [LinearOrder τ] [LinearOrder K]
  [DecidableEq σ] [DecidableEq ι]

/-- What is placed, and where. -/
structure Problem (ε σ τ ι T K : Type) where
  items : List ι
  preds : ι → Finset ι
  sites : ι → List σ
  /-- The time at which the predecessors of an item are finished. -/
  release : ε → ι → T
  /-- What orders the items of a group that may start at the same time. -/
  tail : ε → ι → τ
  ident : τ → ι
  /-- The time from which a site is free. -/
  frontier : ε → σ → T
  key : σ → T → τ → K
  taken : ε → ι → Bool
  place : ε → σ → T → τ → ε

/-- An item on a site, from a time on. -/
@[ext] structure Choice (σ τ T K : Type) where
  key : K
  site : σ
  start : T
  tail : τ

namespace Problem

variable (p : Problem ε σ τ ι T K) (env : ε)

/-! ## The plain way -/

/-- The items that wait for nothing but a site. -/
def ready : List ι :=
  p.items.filter fun id => p.taken env id = false ∧ ∀ q ∈ p.preds id, p.taken env q = true

/-- An item on a site. -/
def choice (id : ι) (site : σ) : Choice σ τ T K :=
  let start := max (p.release env id) (p.frontier env site)
  { key := p.key site start (p.tail env id), site := site, start := start, tail := p.tail env id }

/-- All choices. -/
def choices : List (Choice σ τ T K) :=
  (p.ready env).flatMap fun id => (p.sites id).map (p.choice env id)

/-- The choice with the least key. -/
def best : Option (Choice σ τ T K) := (p.choices env).argmin (·.key)

end Problem

/-! ## The lazy way -/

/-- The items that wait for a site: a heap by release, and a heap of those whose release the
frontier has passed. -/
structure Group (σ τ T : Type) where
  site : σ
  releases : List (T ×ₗ τ) := []
  eligible : List τ := []
  version : ℕ := 0

namespace Group

variable (p : Problem ε σ τ ι T K) (env : ε)

/-- Items that the frontier has passed become eligible; taken items in front are dropped. -/
def advance (g : Group σ τ T) : Group σ τ T :=
  { g with
    releases := g.releases.dropWhile fun e => (ofLex e).1 ≤ p.frontier env g.site
    eligible := ((g.releases.takeWhile fun e => (ofLex e).1 ≤ p.frontier env g.site).foldl
      (fun eligible e => if p.taken env (p.ident (ofLex e).2) then eligible
        else eligible.orderedInsert (· ≤ ·) (ofLex e).2) g.eligible).dropWhile
      fun t => p.taken env (p.ident t) }

/-- Taken items in front of the releases are dropped. -/
def trim (g : Group σ τ T) : Group σ τ T :=
  { g with releases := g.releases.dropWhile fun e => p.taken env (p.ident (ofLex e).2) }

/-- The best choice of a group. -/
def candidate (g : Group σ τ T) : Option (Choice σ τ T K) × Group σ τ T :=
  let g := g.advance p env
  let choice := fun start tail =>
    ({ key := p.key g.site start tail, site := g.site, start := start, tail := tail } :
      Choice σ τ T K)
  match g.eligible with
  | tail :: _ => (some (choice (p.frontier env g.site) tail), g)
  | [] =>
    let g := g.trim p env
    match g.releases with
    | e :: _ => (some (choice (ofLex e).1 (ofLex e).2), g)
    | [] => (none, g)

end Group

/-- An entry of the queue: a key, and the index and the version of a group. -/
abbrev Entry (K : Type) := K ×ₗ (ℕ ×ₗ ℕ)

namespace Entry

/-- The key of an entry. -/
def key (e : Entry K) : K := (ofLex e).1

/-- The index of its group. -/
def index (e : Entry K) : ℕ := (ofLex (ofLex e).2).1

/-- The version of its group. -/
def version (e : Entry K) : ℕ := (ofLex (ofLex e).2).2

/-- An entry. -/
def of (key : K) (index version : ℕ) : Entry K := toLex (key, toLex (index, version))

omit [LinearOrder K] in
@[simp] theorem key_of (k : K) (i v : ℕ) : (of k i v).key = k := rfl

omit [LinearOrder K] in
@[simp] theorem version_of (k : K) (i v : ℕ) : (of k i v).version = v := rfl

theorem key_le {e e' : Entry K} (h : e ≤ e') : e.key ≤ e'.key := by
  rcases (Prod.Lex.le_iff.mp h) with h | h
  · exact h.le
  · exact h.1.le

/-- The queue with an entry for the candidate of a group. -/
def queued (queue : List (Entry K)) (i v : ℕ) : Option (Choice σ τ T K) → List (Entry K)
  | none => queue
  | some c => queue.orderedInsert (· ≤ ·) (of c.key i v)

omit [LinearOrder T] [LinearOrder τ] [DecidableEq σ] in
theorem mem_queued_of_mem {queue : List (Entry K)} {i v : ℕ} {offer : Option (Choice σ τ T K)}
    {e : Entry K} (h : e ∈ queue) : e ∈ queued queue i v offer := by
  cases offer with
  | none => exact h
  | some c => exact (List.mem_orderedInsert _).mpr (.inr h)

omit [LinearOrder T] [LinearOrder τ] [DecidableEq σ] in
theorem mem_queued {queue : List (Entry K)} {i v : ℕ} {offer : Option (Choice σ τ T K)}
    {e : Entry K} (h : e ∈ queued queue i v offer) : e ∈ queue ∨ ∃ k, e = of k i v := by
  cases offer with
  | none => exact .inl h
  | some c =>
    rcases (List.mem_orderedInsert _).mp h with rfl | h
    · exact .inr ⟨c.key, rfl⟩
    · exact .inl h

omit [LinearOrder T] [LinearOrder τ] [DecidableEq σ] in
theorem queued_sorted {queue : List (Entry K)} {i v : ℕ} {offer : Option (Choice σ τ T K)}
    (h : queue.Pairwise (· ≤ ·)) : (queued queue i v offer).Pairwise (· ≤ ·) := by
  cases offer with
  | none => exact h
  | some c => exact h.orderedInsert _ _

end Entry

/-- What the loop works on. -/
structure State (ε σ τ ι T K : Type) where
  env : ε
  degrees : ι → ℕ
  groups : List (Group σ τ T)
  queue : List (Entry K)

namespace Problem

variable (p : Problem ε σ τ ι T K)

/-- Enter a group in the queue, with a new version. -/
def enqueue (s : State ε σ τ ι T K) (i : ℕ) : State ε σ τ ι T K :=
  match s.groups[i]? with
  | none => s
  | some g =>
    let r := ({ g with version := g.version + 1 } : Group σ τ T).candidate p s.env
    { s with
      groups := s.groups.set i r.2
      queue := Entry.queued s.queue i (g.version + 1) r.1 }

/-- Add an item to the group of a site, which is created if there is none. -/
def addSite (entry : T ×ₗ τ) (r : List (Group σ τ T) × Finset ℕ) (site : σ) :
    List (Group σ τ T) × Finset ℕ :=
  match r.1.findIdx? (·.site = site) with
  | some i => (r.1.modify i fun g => { g with releases := g.releases.orderedInsert (· ≤ ·) entry },
      insert i r.2)
  | none => (r.1 ++ [{ site := site, releases := [entry] }], insert r.1.length r.2)

/-- Add an item to the groups of its sites. -/
def addReady (env : ε) (r : List (Group σ τ T) × Finset ℕ) (id : ι) :
    List (Group σ τ T) × Finset ℕ :=
  (p.sites id).foldl (addSite (toLex (p.release env id, p.tail env id))) r

/-- Add items that are ready now, and enter all groups that changed. -/
def enter (ids : List ι) (changed : Finset ℕ) (s : State ε σ τ ι T K) : State ε σ τ ι T K :=
  let r := ids.foldl (p.addReady s.env) (s.groups, changed)
  (r.2.sort (· ≤ ·)).foldl p.enqueue { s with groups := r.1 }

/-- Before the first placement. -/
def start (env : ε) : State ε σ τ ι T K :=
  p.enter (p.items.filter fun id => (p.preds id).card = 0) ∅
    { env := env, degrees := fun id => (p.preds id).card, groups := [], queue := [] }

/-- Place a choice of a group; the items that it was the last predecessor of are ready. -/
def select (s : State ε σ τ ι T K) (i : ℕ) (c : Choice σ τ T K) : State ε σ τ ι T K :=
  let released := (Kahn.successors p.items p.preds (p.ident c.tail)).foldl
    (Kahn.release Kahn.fifo) { remaining := s.degrees, ready := [], order := [] }
  p.enter released.ready {i}
    { s with env := p.place s.env c.site c.start c.tail, degrees := released.remaining }

/-- Look at the front of the queue. -/
def look (s : State ε σ τ ι T K) (e : Entry K) : State ε σ τ ι T K :=
  match s.groups[e.index]? with
  | none => s
  | some g =>
    if e.version ≠ g.version then s
    else
      let r := g.candidate p s.env
      let s := { s with groups := s.groups.set e.index r.2 }
      match r.1 with
      | none => s
      | some c => if c.key ≠ e.key then p.enqueue s e.index else p.select s e.index c

/-- The loop. -/
def run : ℕ → State ε σ τ ι T K → Option (State ε σ τ ι T K)
  | 0, _ => none
  | n + 1, s =>
    match s.queue with
    | [] => some s
    | e :: queue => run n (p.look { s with queue := queue } e)

end Problem

end VeriCCL.LazyQueue
