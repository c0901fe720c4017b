import VeriCCL.LeftmostLongest
import VeriCCL.Redaction

/-! # Redaction of a stream

`StreamRedactor.feed` of `execution/security.py` replaces secrets in output that arrives in
chunks.  It keeps back what may still become a secret, but replaces a complete secret at once,
also where a longer one has begun.  So the cut into chunks does not matter exactly when no
secret is the beginning of another (`stream_redaction_iff`). -/
namespace VeriCCL

/-- A known secret, as bytes. -/
structure Secret where
  bytes : List UInt8
  nonempty : bytes ≠ []
  deriving DecidableEq

/-- `s[:1]`. -/
def Secret.first (s : Secret) : UInt8 := s.bytes.head s.nonempty

/-- The bytes of a text that is not empty. -/
def Secret.ofText (text : String) (h : text ≠ "") : Secret where
  bytes := text.toUTF8.data.toList
  nonempty := by
    intro hnil
    refine h (String.utf8ByteSize_eq_zero_iff.mp ?_)
    exact congrArg List.length hnil

/-- `Redactor.secrets`, as `StreamRedactor` encodes them: the given values and those of
sensitive variables, each once, longest first. -/
def redactorSecrets (secrets : List String) (environment : List (String × String)) : List Secret :=
  let values := secrets ++ (environment.filter fun e => sensitiveKey e.1).map (·.2)
  let kept := (values.dedup.filter fun v => v ≠ "").insertionSort fun a b => b.length ≤ a.length
  kept.filterMap fun v => if h : v ≠ "" then some (.ofText v h) else none

/-- `b"[REDACTED]"`. -/
def marker : List UInt8 := [91, 82, 69, 68, 65, 67, 84, 69, 68, 93]

section Redactor

variable (secrets : List Secret)

/-- Up to the next byte that may begin a secret, after the first one. -/
def copyLength (pending : List UInt8) : ℕ :=
  let positions := secrets.filterMap fun s =>
    (pending.tail.findIdx? fun b => b = s.first).map (· + 1)
  positions.min?.getD pending.length

/-- The first secret that the pending bytes begin with. -/
def firstMatch (pending : List UInt8) : Option Secret :=
  secrets.find? fun s => s.bytes.isPrefixOf pending

/-- The pending bytes may still become a secret. -/
def mayExtend (pending : List UInt8) : Bool :=
  secrets.any fun s => pending.isPrefixOf s.bytes

/-- The loop of `feed`, with the turns it may still take. -/
def feedLoop (final : Bool) : ℕ → List UInt8 → List UInt8 → List UInt8 × List UInt8
  | 0, output, pending => (output, pending)
  | turns + 1, output, pending =>
    if pending = [] then (output, pending)
    else match firstMatch secrets pending with
      | some s => feedLoop final turns (output ++ marker) (pending.drop s.bytes.length)
      | none =>
        if final = false ∧ mayExtend secrets pending = true then (output, pending)
        else
          let count := copyLength secrets pending
          feedLoop final turns (output ++ pending.take count) (pending.drop count)

/-- `StreamRedactor.feed`: the output and the new pending bytes. -/
def feed (pending data : List UInt8) (final : Bool) : List UInt8 × List UInt8 :=
  feedLoop secrets final (pending ++ data).length [] (pending ++ data)

/-- The output of the feeds of some chunks, and what is pending then. -/
def fed (chunks : List (List UInt8)) : List UInt8 × List UInt8 :=
  chunks.foldl (fun s chunk =>
    let turn := feed secrets s.2 chunk false
    (s.1 ++ turn.1, turn.2)) ([], [])

/-- The whole output: the chunks, and the final feed with the last data. -/
def streamOutput (chunks : List (List UInt8)) (last : List UInt8) : List UInt8 :=
  (fed secrets chunks).1 ++ (feed secrets (fed secrets chunks).2 last true).1

/-- The secrets as patterns. -/
def secretBytes : List (List UInt8) := secrets.map (·.bytes)

/-- What is written for a piece of the text. -/
def redactPiece : Piece UInt8 → List UInt8
  | .found _ => marker
  | .plain b => [b]

/-- What is written for a text that was cut into pieces. -/
def redacted (pieces : List (Piece UInt8)) : List UInt8 := pieces.flatMap redactPiece

/-- The loop of a feed has come to its end. -/
def Settled (final : Bool) (pending : List UInt8) : Prop :=
  pending = [] ∨ (final = false ∧ firstMatch secrets pending = none ∧
    mayExtend secrets pending = true)

/-- **Redaction that does not depend on the chunks.**  The output is the leftmost-longest
replacement of the secrets in the whole text; at any time it is the replacement in an initial
part of the cut, so that a byte that got through belongs to an occurrence of a secret only if
that occurrence begins inside an earlier replaced one; and every feed comes to its end. -/
structure RedactsStreams : Prop where
  output : ∀ chunks last pieces, Pieces (secretBytes secrets) (chunks.flatten ++ last) pieces →
    streamOutput secrets chunks last = redacted pieces
  emitted : ∀ chunks rest pieces, Pieces (secretBytes secrets) (chunks.flatten ++ rest) pieces →
    ∃ before, before <+: pieces ∧ (fed secrets chunks).1 = redacted before ∧
      ∀ p, PlainAt before p → ∀ s ∈ secrets, ∀ q, q ≤ p → p < q + s.bytes.length →
        s.bytes <+: (chunks.flatten ++ rest).drop q → OverlappedAt pieces q
  settles : ∀ pending data final, Settled secrets final (feed secrets pending data final).2

end Redactor

/-! ## One feed -/

section Feed

variable {secrets : List Secret} {final : Bool} {output pending : List UInt8} {turns : ℕ}

@[simp] theorem redacted_nil : redacted [] = [] := rfl

@[simp] theorem redacted_append (l m : List (Piece UInt8)) :
    redacted (l ++ m) = redacted l ++ redacted m := by
  simp [redacted]

theorem redacted_map_plain (l : List UInt8) : redacted (l.map .plain) = l := by
  induction l with
  | nil => rfl
  | cons b l ih =>
    show [b] ++ redacted (l.map .plain) = b :: l
    rw [ih]
    rfl

theorem secretBytes_nonempty : ∀ p ∈ secretBytes secrets, p ≠ [] := by
  intro p hp
  obtain ⟨s, -, rfl⟩ := List.mem_map.mp hp
  exact s.nonempty

theorem firstMatch_some {s : Secret} (h : firstMatch secrets pending = some s) :
    s ∈ secrets ∧ s.bytes <+: pending :=
  ⟨List.mem_of_find?_eq_some h, List.isPrefixOf_iff_prefix.mp
    (List.find?_some (p := fun s : Secret => s.bytes.isPrefixOf pending) h)⟩

theorem firstMatch_none : firstMatch secrets pending = none ↔
    ∀ p ∈ secretBytes secrets, ¬ p <+: pending := by
  simp [firstMatch, secretBytes, List.isPrefixOf_iff_prefix]

theorem mayExtend_iff : mayExtend secrets pending = true ↔
    ∃ p ∈ secretBytes secrets, pending <+: p := by
  simp [mayExtend, secretBytes, List.isPrefixOf_iff_prefix]

variable (secrets) in
/-- The copied part is not empty, and no secret begins in it after its first byte. -/
theorem copyLength_spec (hpending : pending ≠ []) :
    0 < copyLength secrets pending ∧ copyLength secrets pending ≤ pending.length ∧
      ∀ i, 0 < i → i < copyLength secrets pending → ∀ s ∈ secrets, pending[i]? ≠ some s.first := by
  obtain ⟨b, rest, rfl⟩ := List.exists_cons_of_ne_nil hpending
  obtain ⟨positions, hpositions⟩ : ∃ positions, positions = secrets.filterMap fun s =>
    (rest.findIdx? fun b => b = s.first).map (· + 1) := ⟨_, rfl⟩
  have hcount : copyLength secrets (b :: rest) = positions.min?.getD (b :: rest).length := by
    rw [hpositions]
    rfl
  rw [hcount]
  -- the positions found are inside, and no earlier position has the byte looked for
  have hfound : ∀ n, n ∈ positions ↔ ∃ s ∈ secrets, ∃ k,
      rest.findIdx? (fun b => b = s.first) = some k ∧ k + 1 = n := by
    intro n
    simp [hpositions, List.mem_filterMap]
  have hmiss : ∀ i, 0 < i → (∀ n ∈ positions, i < n) → i < (b :: rest).length → ∀ s ∈ secrets,
      (b :: rest)[i]? ≠ some s.first := by
    intro i hi hsmall hlen s hs hget
    obtain ⟨k, rfl⟩ : ∃ k, i = k + 1 := ⟨i - 1, by omega⟩
    rw [List.getElem?_cons_succ] at hget
    obtain ⟨hk, hbyte⟩ := List.getElem?_eq_some_iff.mp hget
    cases hidx : rest.findIdx? (fun b => b = s.first) with
    | none =>
      have := List.findIdx?_eq_none_iff.mp hidx _ (List.getElem_mem hk)
      simp [hbyte] at this
    | some m =>
      have hlt := hsmall (m + 1) ((hfound _).mpr ⟨s, hs, m, hidx, rfl⟩)
      obtain ⟨_, -, hbefore⟩ := List.findIdx?_eq_some_iff_getElem.mp hidx
      have hother := hbefore k (by omega)
      simp [hbyte] at hother
  cases hmin : positions.min? with
  | none =>
    rw [List.min?_eq_none_iff] at hmin
    refine ⟨by simp, by simp, fun i hi hlt s hs => hmiss i hi (by simp [hmin]) (by simpa using hlt) s hs⟩
  | some n =>
    obtain ⟨hmem, hle⟩ := List.min?_eq_some_iff.mp hmin
    obtain ⟨s, hs, k, hk, rfl⟩ := (hfound n).mp hmem
    obtain ⟨hlen, -⟩ := List.findIdx?_eq_some_iff_getElem.mp hk
    simp only [Option.getD_some, List.length_cons]
    refine ⟨Nat.succ_pos _, by omega, fun i hi hlt s hs => hmiss i hi (fun m hm => ?_) ?_ s hs⟩
    · exact lt_of_lt_of_le hlt (hle m hm)
    · rw [List.length_cons]
      omega

/-- A loop with a turn for each pending byte comes to its end. -/
theorem feedLoop_settled (h : pending.length ≤ turns) :
    Settled secrets final (feedLoop secrets final turns output pending).2 := by
  induction turns generalizing output pending with
  | zero =>
    have hnil : pending = [] := List.length_eq_zero_iff.mp (by omega)
    exact Or.inl hnil
  | succ turns ih =>
    unfold feedLoop
    split
    · exact Or.inl ‹_›
    · rename_i hpending
      have hpos := List.length_pos_of_ne_nil hpending
      split
      · rename_i s hs
        have hpos' := List.length_pos_of_ne_nil s.nonempty
        refine ih ?_
        rw [List.length_drop]
        omega
      · rename_i hnone
        split
        · rename_i hwait
          exact Or.inr ⟨hwait.1, hnone, hwait.2⟩
        · have hcount := (copyLength_spec secrets hpending).1
          refine ih ?_
          rw [List.length_drop]
          omega

/-- At the bytes that are copied no secret begins, whatever follows the pending bytes. -/
theorem copied_plain (hpending : pending ≠ []) (hnone : firstMatch secrets pending = none)
    {rest : List UInt8} (hopen : rest = [] ∨ mayExtend secrets pending = false) :
    ∀ i < copyLength secrets pending, ∀ p ∈ secretBytes secrets,
      ¬ p <+: (pending ++ rest).drop i := by
  obtain ⟨-, hle, hmiss⟩ := copyLength_spec secrets hpending
  intro i hi p hp hpre
  rcases Nat.eq_zero_or_pos i with rfl | hpos
  · rw [List.drop_zero] at hpre
    rcases hopen with rfl | hclosed
    · exact firstMatch_none.mp hnone p hp (by simpa using hpre)
    · rcases List.prefix_or_prefix_of_prefix hpre (List.prefix_append pending rest) with h | h
      · exact firstMatch_none.mp hnone p hp h
      · rw [mayExtend_iff.mpr ⟨p, hp, h⟩] at hclosed
        cases hclosed
  · obtain ⟨s, hs, rfl⟩ := List.mem_map.mp hp
    refine hmiss i hpos hi s hs ?_
    obtain ⟨after, hafter⟩ := hpre
    have hget : pending[i]? = ((pending ++ rest).drop i).head? := by
      rw [List.head?_drop, List.getElem?_append_left (by omega)]
    rw [hget, ← hafter, List.head?_append_of_ne_nil _ s.nonempty, List.head?_eq_some_head s.nonempty]
    rfl

variable (secrets final output pending) in
/-- **A feed cuts off a part of the pending bytes**, and when no secret is the beginning of
another it cuts as the leftmost-longest cut of everything does, whatever follows. -/
theorem feedLoop_pieces (h : pending.length ≤ turns) :
    ∃ pieces, (feedLoop secrets final turns output pending).1 = output ++ redacted pieces ∧
      rawText pieces ++ (feedLoop secrets final turns output pending).2 = pending ∧
      (PrefixFree (secretBytes secrets) → ∀ rest tail, (final = true → rest = []) →
        Pieces (secretBytes secrets) ((feedLoop secrets final turns output pending).2 ++ rest) tail →
        Pieces (secretBytes secrets) (pending ++ rest) (pieces ++ tail)) := by
  induction turns generalizing output pending with
  | zero => exact ⟨[], by simp [feedLoop], rfl, fun _ _ _ _ htail => htail⟩
  | succ turns ih =>
    unfold feedLoop
    split
    · exact ⟨[], by simp, rfl, fun _ _ _ _ htail => htail⟩
    · rename_i hpending
      have hpos := List.length_pos_of_ne_nil hpending
      split
      · rename_i s hs
        obtain ⟨hmem, after, hafter⟩ := firstMatch_some hs
        have hpos' := List.length_pos_of_ne_nil s.nonempty
        have hdrop : pending.drop s.bytes.length = after := by rw [← hafter, List.drop_left]
        obtain ⟨pieces, hout, hraw, hpieces⟩ := ih (output ++ marker)
          (pending.drop s.bytes.length) (by rw [List.length_drop]; omega)
        refine ⟨.found s.bytes :: pieces, ?_, ?_, fun hfree rest tail hrest htail => ?_⟩
        · rw [hout, List.append_assoc]
          rfl
        · rw [rawText_cons, List.append_assoc, hraw, hdrop]
          exact hafter
        · have hrec := hpieces hfree rest tail hrest htail
          rw [hdrop] at hrec
          rw [← hafter, List.append_assoc]
          exact Pieces.found_of_prefixFree hfree (List.mem_map.mpr ⟨s, hmem, rfl⟩) hrec
      · rename_i hnone
        split
        · exact ⟨[], by simp, rfl, fun _ _ _ _ htail => htail⟩
        · rename_i hgo
          obtain ⟨hcount, hle, -⟩ := copyLength_spec secrets hpending
          obtain ⟨pieces, hout, hraw, hpieces⟩ := ih
            (output ++ pending.take (copyLength secrets pending))
            (pending.drop (copyLength secrets pending))
            (by rw [List.length_drop]; omega)
          refine ⟨(pending.take (copyLength secrets pending)).map .plain ++ pieces, ?_, ?_,
            fun hfree rest tail hrest htail => ?_⟩
          · rw [hout, redacted_append, redacted_map_plain, List.append_assoc]
          · rw [rawText_append, rawText_map_plain, List.append_assoc, hraw, List.take_append_drop]
          · have hopen : rest = [] ∨ mayExtend secrets pending = false := by
              cases final with
              | true => exact Or.inl (hrest rfl)
              | false => exact Or.inr (by simpa using hgo)
            have hplain := copied_plain hpending hnone hopen
            have hsplit : pending ++ rest = pending.take (copyLength secrets pending) ++
                (pending.drop (copyLength secrets pending) ++ rest) := by
              rw [← List.append_assoc, List.take_append_drop]
            rw [List.append_assoc, hsplit]
            refine Pieces.plains (fun i hi => ?_) (hpieces hfree rest tail hrest htail)
            rw [← hsplit]
            exact hplain i (by rw [List.length_take] at hi; omega)

end Feed

/-! ## A whole stream -/

section Stream

variable {secrets : List Secret}

theorem fed_snoc (chunks : List (List UInt8)) (chunk : List UInt8) :
    fed secrets (chunks ++ [chunk]) =
      ((fed secrets chunks).1 ++ (feed secrets (fed secrets chunks).2 chunk false).1,
        (feed secrets (fed secrets chunks).2 chunk false).2) := by
  simp [fed, List.foldl_append]

/-- What was output so far is the beginning of the redaction of everything. -/
theorem fed_pieces (hfree : PrefixFree (secretBytes secrets)) (chunks : List (List UInt8)) :
    ∃ pieces, (fed secrets chunks).1 = redacted pieces ∧ ∀ rest tail,
      Pieces (secretBytes secrets) ((fed secrets chunks).2 ++ rest) tail →
      Pieces (secretBytes secrets) (chunks.flatten ++ rest) (pieces ++ tail) := by
  induction chunks using List.reverseRecOn with
  | nil => exact ⟨[], rfl, fun rest tail htail => htail⟩
  | append_singleton chunks chunk ih =>
    obtain ⟨before, hbefore, hpieces⟩ := ih
    obtain ⟨pieces, hout, -, hfeed⟩ := feedLoop_pieces secrets false []
      ((fed secrets chunks).2 ++ chunk) (le_refl _)
    refine ⟨before ++ pieces, ?_, fun rest tail htail => ?_⟩
    · rw [fed_snoc, redacted_append, hbefore]
      exact congrArg _ hout
    · rw [fed_snoc] at htail
      have hrec := hfeed hfree rest tail (by simp) htail
      rw [List.append_assoc] at hrec
      have hall := hpieces (chunk ++ rest) (pieces ++ tail) hrec
      rw [List.flatten_append, List.flatten_singleton, List.append_assoc, List.append_assoc]
      exact hall

/-- The final feed leaves nothing pending. -/
theorem feed_final (pending data : List UInt8) : (feed secrets pending data true).2 = [] := by
  have hsettled : Settled secrets true (feed secrets pending data true).2 :=
    feedLoop_settled (le_refl _)
  rcases hsettled with h | ⟨h, -⟩
  · exact h
  · cases h

/-- **Without a secret that begins another, the chunks do not matter.** -/
theorem redactsStreams_of_prefixFree (hfree : PrefixFree (secretBytes secrets)) :
    RedactsStreams secrets where
  output := by
    intro chunks last pieces hwhole
    obtain ⟨before, hbefore, hpieces⟩ := fed_pieces hfree chunks
    obtain ⟨after, hout, -, hfeed⟩ := feedLoop_pieces secrets true []
      ((fed secrets chunks).2 ++ last) (le_refl _)
    have hend : Pieces (secretBytes secrets) ((feed secrets (fed secrets chunks).2 last true).2 ++ [])
        [] := by
      rw [feed_final]
      exact .nil
    have hlast := hfeed hfree [] [] (fun _ => rfl) hend
    rw [List.append_nil, List.append_nil] at hlast
    have hall := hpieces last after hlast
    rw [hwhole.unique secretBytes_nonempty hall, redacted_append]
    unfold streamOutput
    rw [hbefore]
    exact congrArg _ hout
  emitted := by
    intro chunks rest pieces hwhole
    obtain ⟨before, hbefore, hpieces⟩ := fed_pieces hfree chunks
    obtain ⟨tail, htail⟩ := Pieces.exists_of_nonempty (secretBytes_nonempty : ∀ p ∈ secretBytes secrets, p ≠ [])
      ((fed secrets chunks).2 ++ rest)
    have hsplit := hwhole.unique secretBytes_nonempty (hpieces rest tail htail)
    refine ⟨before, ⟨tail, hsplit.symm⟩, hbefore, fun p hp s hs q hle hlt hoccurs => ?_⟩
    refine hwhole.plain_overlapped ?_ (List.mem_map.mpr ⟨s, hs, rfl⟩) hle hlt hoccurs
    obtain ⟨l, b, r, rfl, hl⟩ := hp
    exact ⟨l, b, r ++ tail, by rw [hsplit]; simp, hl⟩
  settles := fun _ _ _ => feedLoop_settled (le_refl _)

theorem redacted_eq_nil {pieces : List (Piece UInt8)} (h : redacted pieces = []) : pieces = [] := by
  cases pieces with
  | nil => rfl
  | cons piece pieces => cases piece <;> cases h

/-- **Where a secret begins another, a cut after the shorter one is seen.** -/
theorem prefixFree_of_redactsStreams (h : RedactsStreams secrets) :
    PrefixFree (secretBytes secrets) := by
  intro p hp q hq hpq
  obtain ⟨r, rfl⟩ := hpq
  rcases eq_or_ne r [] with rfl | hr
  · rw [List.append_nil]
  exfalso
  -- the whole of the longer secret is replaced once
  have hwhole : Pieces (secretBytes secrets) ([p].flatten ++ r) [.found (p ++ r)] := by
    rw [List.flatten_singleton]
    have hone : Pieces (secretBytes secrets) (p ++ r ++ []) [.found (p ++ r)] :=
      .found hq (fun t _ ht => by simpa using ht.length_le) .nil
    rwa [List.append_nil] at hone
  have houtput := h.output [p] r _ hwhole
  -- the shorter one is replaced at once, and something follows
  obtain ⟨s, hs⟩ : ∃ s, firstMatch secrets p = some s := by
    rw [← Option.isSome_iff_exists, ← Option.ne_none_iff_isSome, ne_eq, firstMatch_none]
    exact fun hnone => hnone p hp (List.prefix_refl p)
  have hpne := secretBytes_nonempty p hp
  have hpos := List.length_pos_of_ne_nil hpne
  have hpos' := List.length_pos_of_ne_nil s.nonempty
  obtain ⟨turns, hturns⟩ : ∃ turns, p.length = turns + 1 := ⟨p.length - 1, by omega⟩
  have hfirst : fed secrets [p] =
      feedLoop secrets false turns marker (p.drop s.bytes.length) := by
    show ([] ++ (feed secrets [] p false).1, (feed secrets [] p false).2) = _
    unfold feed
    rw [List.nil_append, List.nil_append, hturns, feedLoop, if_neg hpne, hs]
    rfl
  obtain ⟨before, hbefore, -, -⟩ := feedLoop_pieces secrets false marker
    (p.drop s.bytes.length) (show (p.drop s.bytes.length).length ≤ turns by
      rw [List.length_drop]
      omega)
  obtain ⟨after, hafter, hraw, -⟩ := feedLoop_pieces secrets true []
    ((fed secrets [p]).2 ++ r) (le_refl _)
  have hlast : (feed secrets (fed secrets [p]).2 r true).1 = redacted after := hafter
  unfold streamOutput at houtput
  rw [hlast, hfirst, hbefore, List.append_assoc] at houtput
  have hnil : redacted before ++ redacted after = [] := by
    have hlen := congrArg List.length houtput
    have hmarker : (redacted [.found (p ++ r)]).length = marker.length := rfl
    rw [hmarker, List.length_append] at hlen
    exact List.length_eq_zero_iff.mp (by omega)
  have hnone : after = [] := redacted_eq_nil (List.append_eq_nil_iff.mp hnil).2
  have hend : (feedLoop secrets true ((fed secrets [p]).2 ++ r).length []
      ((fed secrets [p]).2 ++ r)).2 = [] := feed_final _ _
  rw [hnone, rawText_nil, List.nil_append, hend] at hraw
  exact hr (List.append_eq_nil_iff.mp hraw.symm).2

end Stream

/-- **Redaction does not depend on the chunks exactly when no secret begins another.** -/
theorem stream_redaction_iff (secrets : List Secret) :
    RedactsStreams secrets ↔ PrefixFree (secretBytes secrets) :=
  ⟨prefixFree_of_redactsStreams, redactsStreams_of_prefixFree⟩

/-! ## Two secrets -/

def shortSecret : Secret := ⟨[97, 98], by decide⟩

def longSecret : Secret := ⟨[97, 98, 99], by decide⟩

/-- The last byte of the longer secret gets through when the read ends before it. -/
theorem stream_redaction_cut :
    redactorSecrets ["ab"] [("API_TOKEN", "abc")] = [longSecret, shortSecret] ∧
      streamOutput [longSecret, shortSecret] [[97, 98, 99]] [] = marker ∧
      streamOutput [longSecret, shortSecret] [[97, 98]] [99] = marker ++ [99] ∧
      ¬ RedactsStreams [longSecret, shortSecret] := by
  refine ⟨by decide +kernel, by decide, by decide, fun h => ?_⟩
  have hfree := prefixFree_of_redactsStreams h
  have hsame := hfree [97, 98] (by decide) [97, 98, 99] (by decide) (by decide)
  exact absurd hsame (by decide)

end VeriCCL
