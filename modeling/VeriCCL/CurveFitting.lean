import VeriCCL.CostModel
import VeriCCL.LeastSegmentation

/-! # Fitting cost curves

`fit_curve` of `verification/online/cost_fitting.py`: measured points become one cost when a
single fit is good enough, else the fewest contiguous segments with good fits, each confirmed by
other measurements.  The fit of one segment (`_linear`) is a parameter of which only the sizes it
covers matter.  Nothing is extrapolated: every segment begins and ends at measured sizes
(`Segmented.measured`). -/
namespace VeriCCL

/-- A payload in bytes and its duration. -/
abbrev FitPoint := ℕ × ℚ

/-- What `_linear` reports of an accepted fit. -/
structure FitReport where
  sizes : List ℕ
  relativeResiduals : List ℚ
  relativeSse : ℚ
  maxRelativeError : ℚ
  deriving DecidableEq

/-- An entry of the diagnostics. -/
inductive FitDiagnostic where
  | rejected (reason : String)
  | fitted (report : FitReport)
  | confirmation (sizes : List ℕ) (residuals : List ℚ) (confirmed : Bool)
  deriving DecidableEq

/-- The statuses of a `CurveFit`. -/
inductive FitStatus where
  | insufficientSizes
  | qualified
  | unidentifiable
  | poorFit
  | needsConfirmation
  deriving DecidableEq

/-- The fit found no segments. -/
def FitStatus.failed : FitStatus → Bool
  | .insufficientSizes | .unidentifiable | .poorFit => true
  | .qualified | .needsConfirmation => false

/-- `CurveFit`. -/
structure CurveFit where
  status : FitStatus
  segments : List ServiceCost := []
  proposedSegments : List ServiceCost := []
  diagnostics : List FitDiagnostic := []

/-- Points by size, then duration. -/
def pointLe (a b : FitPoint) : Prop := a.1 < b.1 ∨ (a.1 = b.1 ∧ a.2 ≤ b.2)

instance : DecidableRel pointLe := fun _ _ => inferInstanceAs (Decidable (_ ∨ _))

/-- One turn of the loop of `_points`. -/
def checkPoint (value : ℤ × ℚ) : Except Fault FitPoint := do
  Checked.ensure (0 < value.1) (.semantic "fit payloads must be positive integer bytes")
  Checked.ensure (0 < value.2) (.semantic "fit durations must be finite and positive")
  return (value.1.toNat, value.2)

/-- `_points`. -/
def fitPoints (values : List (ℤ × ℚ)) : Except Fault (List FitPoint) := do
  let checked ← values.mapM checkPoint
  let sorted := checked.insertionSort pointLe
  Checked.ensure (sorted.map (·.1)).Nodup (.semantic "fit needs distinct payload medians")
  return sorted

section Fit

variable (linear : List FitPoint → Except String (ServiceCost × FitReport)) (tolerance : ℚ)

/-- The fit of one segment, when it is good enough. -/
def acceptedFit (points : List FitPoint) : Option (ServiceCost × FitReport) :=
  match linear points with
  | .ok fit => if fit.2.maxRelativeError ≤ tolerance then some fit else none
  | .error _ => none

/-- The confirmation points that a segment covers. -/
def observedPoints (confirmation : List FitPoint) (piece : ServiceCost) : List FitPoint :=
  confirmation.filter fun point => piece.covers point.1

/-- How far a point is from a segment, relative to its duration. -/
def fitResidual (piece : ServiceCost) (point : FitPoint) : ℚ :=
  (piece.alpha + piece.beta * point.1 - point.2) / point.2

/-- `passed`. -/
def confirmsPiece (confirmation : List FitPoint) (minimumSizes : ℕ) (piece : ServiceCost) : Bool :=
  let observed := observedPoints confirmation piece
  minimumSizes ≤ observed.length && observed.all fun point => |fitResidual piece point| ≤ tolerance

/-- The confirmation report of a segment. -/
def confirmationReport (confirmation : List FitPoint) (minimumSizes : ℕ) (piece : ServiceCost) :
    FitDiagnostic :=
  let observed := observedPoints confirmation piece
  .confirmation (observed.map (·.1)) (observed.map (fitResidual piece))
    (confirmsPiece tolerance confirmation minimumSizes piece)

/-- The diagnostic of a fit. -/
def linearDiagnostic (points : List FitPoint) : FitDiagnostic :=
  match linear points with
  | .ok fit => .fitted fit.2
  | .error reason => .rejected reason

/-- The fewest segments, which become usable when confirmation agrees in each. -/
def piecewiseFit (points confirmation : List FitPoint) (minimumSizes : ℕ) : CurveFit :=
  match (bestPrefixes (acceptedFit linear tolerance) minimumSizes points).get? points.length with
  | none =>
    { status := match linear points with
        | .ok _ => .poorFit
        | .error _ => .unidentifiable
      diagnostics := [linearDiagnostic linear points] }
  | some best =>
    let pieces := best.map (·.1)
    let confirmed := pieces.all (confirmsPiece tolerance confirmation minimumSizes)
    { status := if confirmed = true then .qualified else .needsConfirmation
      segments := if confirmed = true then pieces else []
      proposedSegments := if confirmed = true then [] else pieces
      diagnostics := best.map (fun fit => .fitted fit.2) ++
        pieces.map (confirmationReport tolerance confirmation minimumSizes) }

/-- `fit_curve`. -/
def fitCurve (points confirmation : List (ℤ × ℚ)) (minimumSizes : ℕ) : Except Fault CurveFit := do
  Checked.ensure (0 ≤ tolerance)
    (.semantic "relative fit tolerance must be finite and nonnegative")
  Checked.ensure (3 ≤ minimumSizes)
    (.semantic "joint alpha/beta fitting needs at least three sizes")
  let points ← fitPoints points
  let confirmation ← fitPoints confirmation
  if points.length < minimumSizes then
    return { status := .insufficientSizes }
  else
    match acceptedFit linear tolerance points with
    | some fit =>
      return { status := .qualified, segments := [fit.1], diagnostics := [.fitted fit.2] }
    | none => return piecewiseFit linear tolerance points confirmation minimumSizes

end Fit

/-! ## Nothing is extrapolated -/

/-- An accepted fit covers exactly the range of its points. -/
def CoversPoints (linear : List FitPoint → Except String (ServiceCost × FitReport)) : Prop :=
  ∀ points fit, linear points = .ok fit → ∀ first last, points.head? = some first →
    points.getLast? = some last → fit.1.minBytes = first.1 ∧ fit.1.maxBytes = some last.1

/-- Points in the order of their sizes. -/
def Increasing (points : List FitPoint) : Prop := points.Pairwise fun a b => a.1 < b.1

theorem fitPoints_increasing {values : List (ℤ × ℚ)} {points : List FitPoint}
    (h : fitPoints values = .ok points) : Increasing points := by
  unfold fitPoints at h
  simp only [Checked.bind_ok, Checked.ensure_ok, Checked.pure_ok] at h
  obtain ⟨checked, -, _, hnodup, rfl⟩ := h
  have htotal : ∀ a b, pointLe a b ∨ pointLe b a := by
    intro a b
    unfold pointLe
    rcases lt_trichotomy a.1 b.1 with hlt | heq | hlt
    · exact Or.inl (Or.inl hlt)
    · rcases le_total a.2 b.2 with hle | hle
      · exact Or.inl (Or.inr ⟨heq, hle⟩)
      · exact Or.inr (Or.inr ⟨heq.symm, hle⟩)
    · exact Or.inr (Or.inl hlt)
  have htrans : ∀ a b c, pointLe a b → pointLe b c → pointLe a c := by
    intro a b c hab hbc
    unfold pointLe at *
    rcases hab with hab | ⟨hab, hab'⟩ <;> rcases hbc with hbc | ⟨hbc, hbc'⟩
    · exact Or.inl (hab.trans hbc)
    · exact Or.inl (hbc ▸ hab)
    · exact Or.inl (hab ▸ hbc)
    · exact Or.inr ⟨hab.trans hbc, hab'.trans hbc'⟩
  have hsorted : (checked.insertionSort pointLe).Pairwise pointLe :=
    @List.pairwise_insertionSort _ pointLe _ ⟨htotal⟩ ⟨htrans⟩ checked
  rw [List.nodup_iff_pairwise_ne, List.pairwise_map] at hnodup
  refine (hsorted.and hnodup).imp ?_
  rintro a b ⟨hlt | ⟨heq, -⟩, hne⟩
  · exact hlt
  · exact absurd heq hne

/-- Segments at measured sizes, apart from each other and in increasing order. -/
structure MeasuredRanges (points : List FitPoint) (pieces : List ServiceCost) : Prop where
  measured : ∀ piece ∈ pieces, ∃ low ∈ points.map (·.1), ∃ high ∈ points.map (·.1),
    piece.minBytes = low ∧ piece.maxBytes = some high ∧ low ≤ high
  apart : pieces.Pairwise fun a b => ∀ high ∈ a.maxBytes, high < b.minBytes

section Ranges

variable {linear : List FitPoint → Except String (ServiceCost × FitReport)} {tolerance : ℚ}

theorem acceptedFit_some {points : List FitPoint} {fit : ServiceCost × FitReport}
    (h : acceptedFit linear tolerance points = some fit) :
    linear points = .ok fit ∧ fit.2.maxRelativeError ≤ tolerance := by
  unfold acceptedFit at h
  split at h
  · rename_i found hfound
    split at h
    · obtain rfl := Option.some.inj h
      exact ⟨hfound, ‹_›⟩
    · cases h
  · cases h

/-- The range of one accepted segment. -/
theorem acceptedFit_range (hcovers : CoversPoints linear) {points : List FitPoint}
    (hne : points ≠ []) (hincreasing : Increasing points) {fit : ServiceCost × FitReport}
    (h : acceptedFit linear tolerance points = some fit) :
    ∃ low ∈ points.map (·.1), ∃ high ∈ points.map (·.1),
      fit.1.minBytes = low ∧ fit.1.maxBytes = some high ∧ low ≤ high := by
  obtain ⟨hfirst, hlast⟩ := hcovers points fit (acceptedFit_some h).1 (points.head hne)
    (points.getLast hne) (List.head?_eq_some_head hne) (List.getLast?_eq_some_getLast hne)
  refine ⟨_, List.mem_map_of_mem (List.head_mem hne), _,
    List.mem_map_of_mem (List.getLast_mem hne), hfirst, hlast, ?_⟩
  obtain ⟨first, rest, rfl⟩ := List.exists_cons_of_ne_nil hne
  rcases List.mem_cons.mp (List.getLast_mem hne) with heq | hmem
  · rw [heq]
    rfl
  · exact le_of_lt ((List.pairwise_cons.mp hincreasing).1 _ hmem)

/-- **Segments begin and end at measured sizes**, and do not meet. -/
theorem Segmented.measured (hcovers : CoversPoints linear) {minimumSizes : ℕ}
    (hpos : 0 < minimumSizes) {points : List FitPoint} {cut : List (ServiceCost × FitReport)}
    (h : Segmented (acceptedFit linear tolerance) minimumSizes points cut)
    (hincreasing : Increasing points) : MeasuredRanges points (cut.map (·.1)) := by
  induction h with
  | nil => exact ⟨by simp, List.Pairwise.nil⟩
  | @snoc before segment bs b _ long accepted ih =>
    obtain ⟨hbefore, hsegment, hcross⟩ := List.pairwise_append.mp hincreasing
    have hne : segment ≠ [] := List.ne_nil_of_length_pos (lt_of_lt_of_le hpos long)
    obtain ⟨hranges, hapart⟩ := ih hbefore
    obtain ⟨low, hlow, high, hhigh, hmin, hmax, hle⟩ :=
      acceptedFit_range hcovers hne hsegment accepted
    rw [List.map_append, List.map_singleton]
    refine ⟨fun piece hpiece => ?_, List.pairwise_append.mpr ⟨hapart, List.pairwise_singleton _ _,
      fun piece hpiece last hlast top htop => ?_⟩⟩
    · simp only [List.map_append, List.mem_append] at hpiece ⊢
      rcases hpiece with hpiece | hpiece
      · obtain ⟨l, hl, t, ht, hrest⟩ := hranges piece hpiece
        exact ⟨l, Or.inl hl, t, Or.inl ht, hrest⟩
      · rw [List.mem_singleton.mp hpiece]
        exact ⟨low, Or.inr hlow, high, Or.inr hhigh, hmin, hmax, hle⟩
    · -- the earlier segment ends at an earlier point
      obtain ⟨l, -, t, ht, -, ht', -⟩ := hranges piece hpiece
      obtain rfl : t = top := by
        rw [ht'] at htop
        exact Option.some.inj htop
      rw [List.mem_singleton.mp hlast, hmin]
      obtain ⟨p, hp, rfl⟩ := List.mem_map.mp ht
      obtain ⟨q, hq, rfl⟩ := List.mem_map.mp hlow
      exact hcross p hp q hq

end Ranges

/-! ## The fewest segments -/

/-- What `fit_curve` returns for some points. -/
structure LeastFit (linear : List FitPoint → Except String (ServiceCost × FitReport))
    (tolerance : ℚ) (minimumSizes : ℕ) (points confirmation : List FitPoint) (fit : CurveFit) :
    Prop where
  /-- Failure is reported exactly when the points cannot be cut. -/
  failed : fit.status.failed = true ↔
    ¬ ∃ cut, cut ≠ [] ∧ Segmented (acceptedFit linear tolerance) minimumSizes points cut
  /-- Otherwise the segments are a cut with the fewest segments. -/
  least : fit.status.failed = false → ∃ cut, cut ≠ [] ∧
    Segmented (acceptedFit linear tolerance) minimumSizes points cut ∧
    cut.map (·.1) = fit.segments ++ fit.proposedSegments ∧
    ∀ other, Segmented (acceptedFit linear tolerance) minimumSizes points other →
      cut.length ≤ other.length
  ranges : MeasuredRanges points (fit.segments ++ fit.proposedSegments)
  /-- Several segments are usable only when each is confirmed. -/
  confirmed : fit.status = .qualified → 1 < fit.segments.length → ∀ piece ∈ fit.segments,
    minimumSizes ≤ (confirmation.filter fun point =>
      piece.covers point.1 ∧ |fitResidual piece point| ≤ tolerance).length

section Result

variable {linear : List FitPoint → Except String (ServiceCost × FitReport)} {tolerance : ℚ}
  {minimumSizes : ℕ} {points confirmation : List FitPoint}

theorem confirmsPiece_count {piece : ServiceCost}
    (h : confirmsPiece tolerance confirmation minimumSizes piece = true) :
    minimumSizes ≤ (confirmation.filter fun point =>
      piece.covers point.1 ∧ |fitResidual piece point| ≤ tolerance).length := by
  unfold confirmsPiece observedPoints at h
  simp only [Bool.and_eq_true, decide_eq_true_eq, List.all_eq_true, List.mem_filter, and_imp] at h
  obtain ⟨hcount, hall⟩ := h
  refine le_of_le_of_eq hcount (congrArg List.length (List.filter_congr fun point hpoint => ?_))
  by_cases hcov : piece.covers point.1
  · simp [hcov, hall point hpoint hcov]
  · simp [hcov]

theorem piecewiseFit_least (hcovers : CoversPoints linear) (hmin : 3 ≤ minimumSizes)
    (hincreasing : Increasing points) (hlength : minimumSizes ≤ points.length) :
    LeastFit linear tolerance minimumSizes points confirmation
      (piecewiseFit linear tolerance points confirmation minimumSizes) := by
  have hbest := bestPrefixes_optimal (acceptedFit linear tolerance) minimumSizes points
    (by omega) (by omega) (le_refl _)
  rw [List.take_length] at hbest
  unfold piecewiseFit
  cases hget : (bestPrefixes (acceptedFit linear tolerance) minimumSizes points).get?
      points.length with
  | none =>
    rw [hget] at hbest
    have hfailed : (match linear points with
        | .ok _ => FitStatus.poorFit
        | .error _ => .unidentifiable).failed = true := by
      split <;> rfl
    refine ⟨⟨fun _ => ?_, fun _ => hfailed⟩, fun h => ?_, ⟨by simp, List.Pairwise.nil⟩, by simp⟩
    · rintro ⟨cut, -, hcut⟩
      exact hbest cut hcut
    · rw [hfailed] at h
      cases h
  | some best =>
    rw [hget] at hbest
    obtain ⟨hcut, hleast⟩ := hbest
    have hne : best ≠ [] := by
      rintro rfl
      have := hcut.eq_nil
      rw [this, List.length_nil] at hlength
      omega
    have hpieces : ∀ c : Bool, ((if c = true then best.map (·.1) else []) ++
        (if c = true then [] else best.map (·.1))) = best.map (·.1) := by
      intro c
      cases c <;> simp
    have hrange := hcut.measured hcovers (by omega) hincreasing
    dsimp only
    refine ⟨⟨fun h => ?_, fun h => absurd ⟨best, hne, hcut⟩ h⟩, fun _ => ⟨best, hne, hcut, ?_,
      hleast⟩, ?_, fun hstatus _ piece hpiece => ?_⟩
    · dsimp only at h
      split at h <;> cases h
    · exact (hpieces _).symm
    · rw [hpieces]
      exact hrange
    · dsimp only at hstatus hpiece
      split at hstatus
      · rename_i hconfirmed
        rw [if_pos hconfirmed] at hpiece
        exact confirmsPiece_count (List.all_eq_true.mp hconfirmed piece hpiece)
      · cases hstatus

/-- **Curve segmentation is minimal and never extrapolates.** -/
theorem fitCurve_least {values confirming : List (ℤ × ℚ)} (hcovers : CoversPoints linear)
    (htolerance : 0 ≤ tolerance) (hmin : 3 ≤ minimumSizes) (hpoints : fitPoints values = .ok points)
    (hconfirmation : fitPoints confirming = .ok confirmation) :
    ∃ fit, fitCurve linear tolerance values confirming minimumSizes = .ok fit ∧
      LeastFit linear tolerance minimumSizes points confirmation fit := by
  have hincreasing := fitPoints_increasing hpoints
  have hrun : ∀ fit, (if points.length < minimumSizes then
        (Except.ok { status := .insufficientSizes } : Except Fault CurveFit)
      else match acceptedFit linear tolerance points with
        | some fit =>
          .ok { status := .qualified, segments := [fit.1], diagnostics := [.fitted fit.2] }
        | none => .ok (piecewiseFit linear tolerance points confirmation minimumSizes)) = .ok fit →
      fitCurve linear tolerance values confirming minimumSizes = .ok fit := by
    intro fit hfit
    unfold fitCurve
    simp only [Checked.ensure, if_pos htolerance, if_pos hmin, hpoints, hconfirmation]
    exact hfit
  by_cases hshort : points.length < minimumSizes
  · refine ⟨_, hrun _ (if_pos hshort), ⟨⟨fun _ => ?_, fun _ => rfl⟩, fun h => ?_,
      ⟨by simp, List.Pairwise.nil⟩, fun h => ?_⟩⟩
    · rintro ⟨cut, hne, hcut⟩
      have hlen := hcut.length_le
      have := Nat.le_mul_of_pos_left minimumSizes (List.length_pos_of_ne_nil hne)
      omega
    · cases h
    · cases h
  · cases haccepted : acceptedFit linear tolerance points with
    | none =>
      refine ⟨_, hrun _ ?_, piecewiseFit_least hcovers hmin hincreasing (not_lt.mp hshort)⟩
      rw [if_neg hshort, haccepted]
    | some fit =>
      have hcut : Segmented (acceptedFit linear tolerance) minimumSizes points [fit] := by
        have hnil : Segmented (acceptedFit linear tolerance) minimumSizes [] [] := .nil
        have h := hnil.snoc (not_lt.mp hshort) haccepted
        simpa using h
      have hrange := hcut.measured hcovers (by omega) hincreasing
      refine ⟨_, hrun { status := .qualified, segments := [fit.1], diagnostics := [.fitted fit.2] }
        (by rw [if_neg hshort, haccepted]), ⟨⟨fun h => ?_, fun h => absurd ⟨_, by simp, hcut⟩ h⟩,
        fun _ => ⟨[fit], by simp, hcut, rfl, fun other hother => ?_⟩, hrange, fun _ h => ?_⟩⟩
      · cases h
      · refine List.length_pos_of_ne_nil ?_
        rintro rfl
        rw [hother.eq_nil, List.length_nil] at hshort
        omega
      · simp at h

end Result

/-! ## Points on two lines -/

/-- The line through the first two points, as a fit of all of them. -/
def lineThrough : List FitPoint → Except String (ServiceCost × FitReport)
  | p :: q :: rest =>
    let beta := (q.2 - p.2) / (q.1 - p.1)
    let alpha := p.2 - beta * p.1
    if h : 0 ≤ alpha ∧ 0 < beta then
      let piece : ServiceCost := ⟨alpha, beta, p.1, some ((q :: rest).getLast (by simp)).1, h.1, h.2⟩
      let residuals := (p :: q :: rest).map (fitResidual piece)
      .ok (piece, ⟨(p :: q :: rest).map (·.1), residuals, (residuals.map fun r => r * r).sum,
        (residuals.map fun r => |r|).foldl max 0⟩)
    else .error "nonpositive_or_unidentifiable_slope"
  | _ => .error "rank_deficient_payloads"

theorem coversPoints_lineThrough : CoversPoints lineThrough := by
  intro points fit h first last hfirst hlast
  match points, h, hfirst, hlast with
  | p :: q :: rest, h, hfirst, hlast =>
    unfold lineThrough at h
    dsimp only at h
    split at h
    · obtain rfl := Except.ok.inj h
      obtain rfl := Option.some.inj hfirst
      rw [List.getLast?_cons_cons, List.getLast?_eq_some_getLast (by simp)] at hlast
      obtain rfl := Option.some.inj hlast
      exact ⟨rfl, rfl⟩
    · cases h

/-- Durations that follow one line up to 300 bytes and another from 1000 bytes. -/
def bentValues : List (ℤ × ℚ) :=
  [(100, 2), (200, 3), (300, 4), (1000, 48), (2000, 88), (3000, 128)]

def bentPoints : List FitPoint :=
  [(100, 2), (200, 3), (300, 4), (1000, 48), (2000, 88), (3000, 128)]

/-- The bent points are cut into two segments, and no cut has fewer. -/
theorem fitCurve_least_bent : ∃ fit,
    fitCurve lineThrough (1 / 100) bentValues bentValues 3 = .ok fit ∧ fit.segments.length = 2 ∧
      LeastFit lineThrough (1 / 100) 3 bentPoints bentPoints fit := by
  have hpoints : fitPoints bentValues = .ok bentPoints := by decide +kernel
  obtain ⟨fit, hfit, hleast⟩ := fitCurve_least coversPoints_lineThrough
    (by norm_num : (0 : ℚ) ≤ 1 / 100) (le_refl 3) hpoints hpoints
  refine ⟨fit, hfit, ?_, hleast⟩
  have hcount : (fitCurve lineThrough (1 / 100) bentValues bentValues 3).toOption.map
      (·.segments.length) = some 2 := by
    decide +kernel
  rw [hfit] at hcount
  simpa [Except.toOption] using hcount

end VeriCCL
