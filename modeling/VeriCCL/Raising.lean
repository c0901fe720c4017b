import VeriCCL.Checked

/-! # Calls that change a state and may raise

A method that raises keeps what it has changed so far; `EStateM` computations behave so.
This module has the rules for showing that a method is *atomic*: when it raises, its state
is as it was before the call (`Atomic`).  A method that first only looks at the state and
then changes it without raising any more is atomic: looking is `asks`, and a computation
that never raises is `Sure`. -/
namespace VeriCCL.Raising

variable {ε σ α β : Type}

/-- Look at the state, or raise. -/
def asks (f : σ → Except ε α) : EStateM ε σ α := fun s =>
  match f s with
  | .ok a => .ok a s
  | .error e => .error e s

/-- What holds when a call returns, and the state it leaves when it raises. -/
def Atomic (x : EStateM ε σ α) (s : σ) (Q : α → σ → Prop) : Prop :=
  match x.run s with
  | .ok a t => Q a t
  | .error _ t => t = s

/-- A call that returns, with what holds then. -/
def Sure (x : EStateM ε σ α) (s : σ) (Q : α → σ → Prop) : Prop :=
  ∃ a t, x.run s = .ok a t ∧ Q a t

theorem run_asks (f : σ → Except ε α) (s : σ) : (asks f).run s =
    match f s with
    | .ok a => .ok a s
    | .error e => .error e s := rfl

section Rules
variable {x : EStateM ε σ α} {f : α → EStateM ε σ β} {g : σ → Except ε α} {s : σ}

theorem Sure.atomic {Q : α → σ → Prop} (h : Sure x s Q) : Atomic x s Q := by
  obtain ⟨a, t, hrun, hq⟩ := h
  unfold Atomic
  rw [hrun]
  exact hq

theorem Sure.mono {Q R : α → σ → Prop} (h : Sure x s Q) (hqr : ∀ a t, Q a t → R a t) :
    Sure x s R := by
  obtain ⟨a, t, hrun, hq⟩ := h
  exact ⟨a, t, hrun, hqr a t hq⟩

/-- **Looking first keeps a call atomic.** -/
theorem Atomic.asks {Q : β → σ → Prop} (h : ∀ a, g s = .ok a → Atomic (f a) s Q) :
    Atomic (asks g >>= f) s Q := by
  unfold Atomic
  rw [EStateM.run_bind, run_asks]
  cases hg : g s with
  | error e => rfl
  | ok a => exact h a hg

theorem Sure.asks {a : α} {Q : β → σ → Prop} (hg : g s = .ok a) (h : Sure (f a) s Q) :
    Sure (asks g >>= f) s Q := by
  obtain ⟨b, t, hrun, hq⟩ := h
  refine ⟨b, t, ?_, hq⟩
  rw [EStateM.run_bind, run_asks, hg]
  exact hrun

theorem Sure.pure {a : α} {Q : α → σ → Prop} (h : Q a s) : Sure (pure a : EStateM ε σ α) s Q :=
  ⟨a, s, rfl, h⟩

theorem Sure.modify {change : σ → σ} {Q : PUnit → σ → Prop} (h : Q ⟨⟩ (change s)) :
    Sure (modify change : EStateM ε σ PUnit) s Q :=
  ⟨⟨⟩, change s, rfl, h⟩

/-- **One sure computation after another.** -/
theorem Sure.bind {Q : α → σ → Prop} {R : β → σ → Prop} (h : Sure x s Q)
    (hf : ∀ a t, Q a t → Sure (f a) t R) : Sure (x >>= f) s R := by
  obtain ⟨a, t, hrun, hq⟩ := h
  obtain ⟨b, u, hrun', hr⟩ := hf a t hq
  refine ⟨b, u, ?_, hr⟩
  rw [EStateM.run_bind, hrun]
  exact hrun'

/-- **A sure loop**: each turn takes what holds before its element to what holds after it. -/
theorem Sure.forM {l : List α} {step : α → EStateM ε σ PUnit} (I : List α → σ → Prop)
    (hstep : ∀ a l t, I (a :: l) t → Sure (step a) t fun _ u => I l u) (h : I l s) :
    Sure (forM l step) s fun _ t => I [] t := by
  induction l generalizing s with
  | nil => exact .pure h
  | cons a l ih =>
    rw [List.forM_cons]
    exact (hstep a l s h).bind fun _ t ht => ih ht

end Rules

end VeriCCL.Raising
