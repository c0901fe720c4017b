import Mathlib.Tactic

/-! # Packed binary formats

A format is a list of little-endian fields of given widths, with padding between them.
`pack` lays values out one after the other and refuses a value that does not fit its field;
`unpack` reads the values back (`unpack_pack`), whatever follows them, and `unpackFrom`
refuses to read beyond the data. -/
namespace VeriCCL.Packed

/-! ## Numbers as bytes -/

/-- `n` bytes of a number, the least significant first. -/
def toBytes : ℕ → ℕ → List UInt8
  | 0, _ => []
  | n + 1, value => UInt8.ofNat value :: toBytes n (value / 256)

/-- The number of some bytes, the least significant first. -/
def ofBytes : List UInt8 → ℕ
  | [] => 0
  | byte :: bytes => byte.toNat + 256 * ofBytes bytes

@[simp] theorem length_toBytes (n value : ℕ) : (toBytes n value).length = n := by
  induction n generalizing value with
  | zero => rfl
  | succ n ih => rw [toBytes, List.length_cons, ih]

/-- A number that fits is read back. -/
theorem ofBytes_toBytes {n value : ℕ} (h : value < 256 ^ n) : ofBytes (toBytes n value) = value := by
  induction n generalizing value with
  | zero =>
    rw [pow_zero, Nat.lt_one_iff] at h
    rw [h]
    rfl
  | succ n ih =>
    have hdiv : value / 256 < 256 ^ n := by
      rw [Nat.div_lt_iff_lt_mul (by norm_num), ← pow_succ]
      exact h
    rw [toBytes, ofBytes, ih hdiv, UInt8.toNat_ofNat']
    exact Nat.mod_add_div value 256

theorem ofBytes_lt (bytes : List UInt8) : ofBytes bytes < 256 ^ bytes.length := by
  induction bytes with
  | nil => simp [ofBytes]
  | cons byte bytes ih =>
    have hbyte : byte.toNat < 256 := byte.toNat_lt
    rw [ofBytes, List.length_cons, pow_succ]
    omega

/-! ## Fields -/

/-- A field of a format. -/
inductive Field where
  | unsigned (bytes : ℕ)
  | signed (bytes : ℕ)
  | pad (bytes : ℕ)
  deriving DecidableEq

/-- The bytes that a field takes. -/
def Field.size : Field → ℕ
  | .unsigned n | .signed n | .pad n => n

/-- The values of a field. -/
def Field.Fits : Field → ℤ → Prop
  | .unsigned n, value => 0 ≤ value ∧ value < 256 ^ n
  | .signed n, value => -(256 ^ n / 2) ≤ value ∧ value < 256 ^ n / 2
  | .pad _, _ => False

instance (field : Field) : Decidable (∃ n, field = .pad n) :=
  match field with
  | .pad n => .isTrue ⟨n, rfl⟩
  | .unsigned _ => .isFalse (by rintro ⟨_, ⟨⟩⟩)
  | .signed _ => .isFalse (by rintro ⟨_, ⟨⟩⟩)

instance : (field : Field) → (value : ℤ) → Decidable (field.Fits value)
  | .unsigned _, _ => inferInstanceAs (Decidable (_ ∧ _))
  | .signed _, _ => inferInstanceAs (Decidable (_ ∧ _))
  | .pad _, _ => inferInstanceAs (Decidable False)

/-- The bytes of a value, in two's complement. -/
def Field.encode (field : Field) (value : ℤ) : List UInt8 :=
  toBytes field.size (value % (256 : ℤ) ^ field.size).toNat

/-- The value of some bytes. -/
def Field.decode (field : Field) (bytes : List UInt8) : ℤ :=
  match field with
  | .signed n =>
    if (ofBytes bytes : ℤ) < 256 ^ n / 2 then ofBytes bytes else ofBytes bytes - (256 : ℤ) ^ n
  | _ => ofBytes bytes

@[simp] theorem Field.length_encode (field : Field) (value : ℤ) :
    (field.encode value).length = field.size := length_toBytes _ _

/-- **A field's value is read back.** -/
theorem Field.decode_encode {field : Field} {value : ℤ} (h : field.Fits value) :
    field.decode (field.encode value) = value := by
  have hpos : (0 : ℤ) < 256 ^ field.size := by positivity
  have hmod : (ofBytes (field.encode value) : ℤ) = value % 256 ^ field.size := by
    have hnonneg := Int.emod_nonneg value hpos.ne'
    have hlt := Int.emod_lt_of_pos value hpos
    rw [Field.encode, ofBytes_toBytes, Int.toNat_of_nonneg hnonneg]
    zify
    rwa [Int.toNat_of_nonneg hnonneg]
  cases field with
  | unsigned n => exact hmod.trans (Int.emod_eq_of_lt h.1 h.2)
  | signed n =>
    obtain ⟨hlow, hhigh⟩ := h
    simp only [Field.size] at hmod hpos
    rw [Field.decode, hmod]
    by_cases hneg : value < 0
    · have hwrap : value % 256 ^ n = value + 256 ^ n := by
        rw [← Int.add_emod_right]
        exact Int.emod_eq_of_lt (by omega) (by omega)
      rw [hwrap, if_neg (by omega)]
      omega
    · have hsame : value % 256 ^ n = value := Int.emod_eq_of_lt (by omega) (by omega)
      rw [hsame, if_pos hhigh]
  | pad n => exact h.elim

/-! ## Formats -/

/-- The bytes that a format takes. -/
def size (format : List Field) : ℕ := (format.map Field.size).sum

/-- The bytes of values, if they fit their fields. -/
def pack : List Field → List ℤ → Option (List UInt8)
  | [], [] => some []
  | [], _ :: _ => none
  | .pad n :: format, values => (pack format values).map (List.replicate n 0 ++ ·)
  | _ :: _, [] => none
  | field :: format, value :: values =>
    if field.Fits value then (pack format values).map (field.encode value ++ ·) else none

/-- The values at the front of some bytes. -/
def unpack : List Field → List UInt8 → List ℤ
  | [], _ => []
  | .pad n :: format, data => unpack format (data.drop n)
  | field :: format, data => field.decode (data.take field.size) :: unpack format (data.drop field.size)

/-- The values at an offset, if the data reach that far. -/
def unpackFrom (format : List Field) (data : List UInt8) (offset : ℕ) : Option (List ℤ) :=
  if offset + size format ≤ data.length then some (unpack format (data.drop offset)) else none

section Formats
variable {format : List Field} {values : List ℤ} {bytes data rest : List UInt8}

theorem length_pack (h : pack format values = some bytes) : bytes.length = size format := by
  fun_induction pack format values generalizing bytes with
  | case1 =>
    obtain rfl := Option.some.inj h
    rfl
  | case2 => cases h
  | case3 n format values ih =>
    obtain ⟨tail, htail, rfl⟩ := Option.map_eq_some_iff.mp h
    rw [List.length_append, List.length_replicate, ih htail]
    rfl
  | case4 => cases h
  | case5 field format value values hpad hfits ih =>
    obtain ⟨tail, htail, rfl⟩ := Option.map_eq_some_iff.mp h
    rw [List.length_append, Field.length_encode, ih htail]
    rfl
  | case6 => cases h

/-- **Values are read back**, whatever follows. -/
theorem unpack_pack (h : pack format values = some bytes) : unpack format (bytes ++ rest) = values := by
  fun_induction pack format values generalizing bytes with
  | case1 => rfl
  | case2 => cases h
  | case3 n format values ih =>
    obtain ⟨tail, htail, rfl⟩ := Option.map_eq_some_iff.mp h
    rw [unpack, List.append_assoc, List.drop_left' List.length_replicate, ih htail]
  | case4 => cases h
  | case5 field format value values hpad hfits ih =>
    obtain ⟨tail, htail, rfl⟩ := Option.map_eq_some_iff.mp h
    rw [unpack, List.append_assoc, List.take_left' (Field.length_encode field value),
      List.drop_left' (Field.length_encode field value), Field.decode_encode hfits, ih htail]
    exact hpad
  | case6 => cases h

/-- Values are read back from where they were put. -/
theorem unpackFrom_pack {front : List UInt8} {offset : ℕ} (h : pack format values = some bytes)
    (hoffset : front.length = offset) :
    unpackFrom format (front ++ (bytes ++ rest)) offset = some values := by
  have hlength := length_pack h
  rw [unpackFrom, if_pos, List.drop_left' hoffset, unpack_pack h]
  simp only [List.length_append]
  omega

/-- Values that fit their fields are packed. -/
theorem pack_fits (h : List.Forall₂ Field.Fits (format.filter fun field => ¬ ∃ n, field = .pad n) values) :
    ∃ bytes, pack format values = some bytes := by
  induction format generalizing values with
  | nil =>
    cases h
    exact ⟨[], rfl⟩
  | cons field format ih =>
    by_cases hpad : ∃ n, field = .pad n
    · obtain ⟨n, rfl⟩ := hpad
      rw [List.filter_cons_of_neg (by simp)] at h
      obtain ⟨bytes, hbytes⟩ := ih h
      rw [pack, hbytes]
      exact ⟨_, rfl⟩
    · rw [List.filter_cons_of_pos (by simpa using hpad)] at h
      cases h with
      | @cons _ value _ values hfits hrest =>
        obtain ⟨bytes, hbytes⟩ := ih hrest
        rw [pack, if_pos hfits, hbytes]
        · exact ⟨_, rfl⟩
        · exact fun n hn => hpad ⟨n, hn⟩

theorem length_unpack (format : List Field) (data data' : List UInt8) :
    (unpack format data).length = (unpack format data').length := by
  induction format generalizing data data' with
  | nil => rfl
  | cons field format ih =>
    cases field with
    | pad n => exact ih _ _
    | unsigned n => exact congrArg (· + 1) (ih _ _)
    | signed n => exact congrArg (· + 1) (ih _ _)

end Formats

end VeriCCL.Packed
