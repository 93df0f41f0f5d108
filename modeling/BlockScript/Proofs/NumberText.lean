import Mathlib.Algebra.Order.Field.Power
import Mathlib.Data.List.TakeWhile
import Mathlib.Tactic.Linarith
import Mathlib.Tactic.FieldSimp
import Mathlib.Tactic.Ring
import BlockScript.Numeral.Decimal
import BlockScript.Numeral.Reading

/-!
# The text of a number identifies it

A finite number is its sign, its mantissa and its exponent, and these are all that its bits tell.
Its text is a minus sign, if there is one, and a decimal that rounds to the magnitude. So two things
have to be known: that a text stands for one decimal value, and that no value rounds to two
magnitudes.

For the second, the values that round to a magnitude go from one midpoint to the next. Two such
stretches can have no more than an end in common, and then one of the two mantissas is odd, and its
stretch is without the end. The stretch is shorter below the first magnitude of a grid, since the
grid below is finer. All this is in quarters of the unit, so that the ends are natural numbers.

The search for the shortest decimal is of no importance here. Whatever it ends with reads back, on
any grid and even if it runs out of steps.

## Main definitions

* `Numeral.Binary.Canonical` — the magnitudes of finite numbers
* `Numeral.Binary.Takes` — the values that round to a magnitude
* `Numeral.Written` — the texts of decimals, with their values

## Main results

* `Numeral.Binary.Takes.unique` — no value rounds to two magnitudes
* `Numeral.Binary.exists_written` — the text of a magnitude stands for a value that rounds to it
* `Numeral.eq_of_text_eq` — different finite numbers have different texts
-/

namespace BlockScript

namespace Numeral

/-! ## Bits -/

open Float.Model.UnpackedFloat in
/-- The last value of the exponent field is that of numbers which are not finite. -/
theorem field_ne_of_isFinite {x : Float} (h : x.isFinite = true) :
    x.toBits.toNat / leastNormal % fieldValues ≠ fieldValues - 1 := by
  intro hfield
  have hexponent : @unpackExponent .binary64 x.toModel.toBits.toBitVec = -1#11 := by
    rw [← BitVec.toNat_inj]
    simp only [unpackExponent, BitVec.toNat_cast, BitVec.extractLsb, BitVec.extractLsb'_toNat,
      Nat.shiftRight_eq_div_pow]
    exact hfield
  have hnot : x.isFinite = false := by
    change (unpack .binary64 x.toModel.toBits.toBitVec).isFinite = false
    delta unpack
    rw [if_pos hexponent]
    split <;> rfl
  exact absurd h (by simp [hnot])

/-- The magnitude is on the grid of its exponent, and on no finer one than it has to be. -/
structure Binary.Canonical (b : Binary) : Prop where
  bound : b.mantissa < 2 * leastNormal
  finest : minExponent ≤ b.exponent
  normal : minExponent < b.exponent → leastNormal ≤ b.mantissa

theorem ofFloat_of_isFinite {x : Float} (h : x.isFinite = true) :
    ∃ negative b, Form.ofFloat x = .finite negative b ∧ b.Canonical := by
  have hfield := field_ne_of_isFinite h
  unfold Form.ofFloat
  simp only [if_neg hfield]
  have hfraction : x.toBits.toNat % leastNormal < leastNormal := Nat.mod_lt _ (by decide)
  split
  · exact ⟨_, _, rfl, by simp only; omega, le_rfl, fun hlt => absurd hlt (lt_irrefl _)⟩
  · exact ⟨_, _, rfl, by simp only; omega, by simp only; omega, fun _ => Nat.le_add_right _ _⟩

/-- Sign, exponent and mantissa of a finite number tell its bits. -/
theorem toNat_toBits {x : Float} {negative : Bool} {b : Binary}
    (h : Form.ofFloat x = .finite negative b) :
    x.toBits.toNat = negative.toNat * 0x8000000000000000 +
      (b.exponent - minExponent).toNat * leastNormal + b.mantissa := by
  have hlt := x.toBits.toNat_lt
  unfold Form.ofFloat at h
  generalize x.toBits.toNat = bits at h hlt ⊢
  have hsign : bits = (decide (0x8000000000000000 ≤ bits)).toNat * 0x8000000000000000 +
      bits % 0x8000000000000000 := by
    by_cases hsign : 0x8000000000000000 ≤ bits <;> simp [hsign] <;> omega
  have hfields : bits % 0x8000000000000000 =
      bits % leastNormal + leastNormal * (bits / leastNormal % fieldValues) :=
    Nat.mod_mul (x := bits) (a := leastNormal) (b := fieldValues)
  simp only at h
  split at h
  · split at h <;> cases h
  · split at h
    · rename_i hfield
      cases h
      rw [hfield] at hfields
      simp only [sub_self, Int.toNat_zero]
      exact hsign.trans (by rw [hfields]; ring)
    · rename_i hfield
      cases h
      obtain ⟨field, hsucc⟩ := Nat.exists_eq_add_one_of_ne_zero hfield
      have hexponent : (minExponent + (field + 1 : ℕ) - 1 - minExponent).toNat = field := by omega
      rw [hsucc] at hfields
      simp only [hsucc, hexponent]
      exact hsign.trans (by rw [hfields]; ring)

theorem eq_of_ofFloat {x y : Float} {negative : Bool} {b : Binary}
    (hx : Form.ofFloat x = .finite negative b) (hy : Form.ofFloat y = .finite negative b) :
    x = y := by
  have hbits : x.toBits = y.toBits :=
    UInt64.toNat_inj.mp ((toNat_toBits hx).trans (toNat_toBits hy).symm)
  -- a number is its bits, with a proof that they are those of one
  obtain ⟨⟨bits, _⟩⟩ := x
  obtain ⟨⟨bits', _⟩⟩ := y
  congr

/-! ## Decimals that read back -/

/-- The value of a decimal. -/
def Decimal.value (d : Decimal) : ℚ := d.digits * 10 ^ d.exponent

namespace Binary

variable {b b' : Binary} {v : ℚ}

/-- The value rounds to `b`: it lies between the two midpoints around `b`, and on one of them only
if the mantissa is even. -/
structure Takes (b : Binary) (v : ℚ) : Prop where
  low : ((4 * b.mantissa - b.quartersBelow : ℕ) : ℚ) * 2 ^ b.exponent ≤ 4 * v
  high : 4 * v ≤ ((4 * b.mantissa + 2 : ℕ) : ℚ) * 2 ^ b.exponent
  even_of_low : 4 * v = ((4 * b.mantissa - b.quartersBelow : ℕ) : ℚ) * 2 ^ b.exponent →
    b.mantissa % 2 = 0
  even_of_high : 4 * v = ((4 * b.mantissa + 2 : ℕ) : ℚ) * 2 ^ b.exponent → b.mantissa % 2 = 0

theorem zpow_eq_div {a : ℕ} (ha : a ≠ 0) (e : ℤ) :
    (a : ℚ) ^ e = ((a ^ e.toNat : ℕ) : ℚ) / (a ^ (-e).toNat : ℕ) := by
  have ha' : (a : ℚ) ≠ 0 := Nat.cast_ne_zero.mpr ha
  have he : e = (e.toNat : ℤ) - ((-e).toNat : ℤ) := by omega
  rw [Nat.cast_pow, Nat.cast_pow, ← zpow_natCast, ← zpow_natCast, ← zpow_sub₀ ha', ← he]

/-- The fraction is the ratio of the units. -/
theorem exists_scale (b : Binary) (k : ℤ) :
    ∃ c : ℚ, 0 < c ∧ ((b.unitRatio k).1 : ℚ) = 2 ^ b.exponent * c ∧
      ((b.unitRatio k).2 : ℚ) = 10 ^ k * c := by
  have h2 := zpow_eq_div two_ne_zero b.exponent
  have h10 := zpow_eq_div (a := 10) (by norm_num) k
  push_cast at h2 h10
  refine ⟨2 ^ (-b.exponent).toNat * 10 ^ (-k).toNat, by positivity, ?_, ?_⟩
  · rw [h2, unitRatio]
    push_cast [Nat.pow_eq]
    field_simp
  · rw [h10, unitRatio]
    push_cast [Nat.pow_eq]
    field_simp

theorem takes_of_lt
    (hlow : ((4 * b.mantissa - b.quartersBelow : ℕ) : ℚ) * 2 ^ b.exponent < 4 * v)
    (hhigh : 4 * v < ((4 * b.mantissa + 2 : ℕ) : ℚ) * 2 ^ b.exponent) : b.Takes v :=
  ⟨hlow.le, hhigh.le, fun h => absurd h hlow.ne', fun h => absurd h hhigh.ne⟩

/-- A decimal that reads back rounds to `b`. -/
theorem takes_of_readsBack {k : ℤ} {digits : ℕ} (h : b.readsBack k digits = true) :
    b.Takes (digits * 10 ^ k) := by
  obtain ⟨c, hc, hnum, hden⟩ := b.exists_scale k
  have hpoint : ((4 * digits * (b.unitRatio k).2 : ℕ) : ℚ) = 4 * (digits * 10 ^ k) * c := by
    push_cast
    rw [hden]
    ring
  have hmul (m : ℕ) : ((m * (b.unitRatio k).1 : ℕ) : ℚ) = m * 2 ^ b.exponent * c := by
    push_cast
    rw [hnum]
    ring
  simp only [readsBack] at h
  split at h
  · rename_i heven
    simp only [Bool.and_eq_true, decide_eq_true_eq] at h
    rw [← @Nat.cast_le ℚ, hmul, hpoint, mul_le_mul_iff_left₀ hc, ← @Nat.cast_le ℚ, hmul, hpoint,
      mul_le_mul_iff_left₀ hc] at h
    exact ⟨h.1, h.2, fun _ => heven, fun _ => heven⟩
  · simp only [Bool.and_eq_true, decide_eq_true_eq] at h
    rw [← @Nat.cast_lt ℚ, hmul, hpoint, mul_lt_mul_iff_left₀ hc, ← @Nat.cast_lt ℚ, hmul, hpoint,
      mul_lt_mul_iff_left₀ hc] at h
    exact takes_of_lt h.1 h.2

theorem takes_of_onGrid {k : ℤ} {d : Decimal} (h : b.onGrid k = some d) : b.Takes d.value := by
  unfold onGrid at h
  simp only at h
  split at h
  · rename_i hbelow habove
    split at h <;> cases h
    · exact takes_of_readsBack hbelow
    · exact takes_of_readsBack habove
  · rename_i hbelow _
    cases h
    exact takes_of_readsBack hbelow
  · rename_i _ habove
    cases h
    exact takes_of_readsBack habove
  · exact nomatch h

theorem value_exact (b : Binary) : b.exact.value = b.mantissa * 2 ^ b.exponent := by
  unfold exact Decimal.value
  have h2 := zpow_eq_div two_ne_zero b.exponent
  push_cast at h2
  split
  · rename_i hneg
    have h10 := zpow_eq_div (a := 10) (by norm_num) b.exponent
    push_cast at h10
    have hzero : b.exponent.toNat = 0 := by omega
    simp only [h2, h10, hzero, Nat.pow_eq]
    push_cast
    have hten : (10 : ℚ) ^ (-b.exponent).toNat =
        5 ^ (-b.exponent).toNat * 2 ^ (-b.exponent).toNat := by
      rw [← mul_pow]
      norm_num
    rw [hten]
    field_simp
  · rename_i hnonneg
    have hzero : (-b.exponent).toNat = 0 := by omega
    simp [h2, hzero]

theorem quartersBelow_cases (b : Binary) : b.quartersBelow = 1 ∨ b.quartersBelow = 2 := by
  unfold quartersBelow
  split <;> simp

theorem takes_exact (hb : b.mantissa ≠ 0) : b.Takes b.exact.value := by
  rw [value_exact]
  have hunit : (0 : ℚ) < 2 ^ b.exponent := by positivity
  have hbelow := b.quartersBelow_cases
  have hlow : ((4 * b.mantissa - b.quartersBelow : ℕ) : ℚ) < 4 * b.mantissa := by
    exact_mod_cast (by omega : 4 * b.mantissa - b.quartersBelow < 4 * b.mantissa)
  have hhigh : (4 * b.mantissa : ℚ) < ((4 * b.mantissa + 2 : ℕ) : ℚ) := by
    push_cast
    linarith
  refine takes_of_lt ?_ ?_ <;> rw [← mul_assoc]
  · exact mul_lt_mul_of_pos_right hlow hunit
  · exact mul_lt_mul_of_pos_right hhigh hunit

/-- **The search ends with a decimal that rounds to the number.** -/
theorem takes_refine (hb : b.mantissa ≠ 0) (steps : ℕ) (k : ℤ) :
    b.Takes (b.refine steps k).value := by
  induction steps generalizing k with
  | zero => exact takes_exact hb
  | succ steps ih =>
    rw [refine]
    split
    · rename_i d hd
      exact takes_of_onGrid hd
    · exact ih (k - 1)

/-! ## Numbers apart -/

/-- The grid of `b` is finer than that of `b'`, or it is the same and `b` comes first. -/
def Before (b b' : Binary) : Prop :=
  b.exponent < b'.exponent ∨ b.exponent = b'.exponent ∧ b.mantissa < b'.mantissa

theorem before_or_before (h : b ≠ b') : b.Before b' ∨ b'.Before b := by
  obtain ⟨m, e⟩ := b
  obtain ⟨m', e'⟩ := b'
  simp only [Before, ne_eq, mk.injEq] at *
  omega

/-- On a coarser grid the unit is at least twice as large. -/
theorem Before.exists_factor (h : b.Before b') :
    ∃ f : ℕ, (2 : ℚ) ^ b'.exponent = f * 2 ^ b.exponent ∧
      (b.exponent < b'.exponent ∧ 2 ≤ f ∨
        b.exponent = b'.exponent ∧ b.mantissa < b'.mantissa ∧ f = 1) := by
  rcases h with hlt | ⟨heq, hlt⟩
  · refine ⟨2 ^ (b'.exponent - b.exponent).toNat, ?_, .inl ⟨hlt, ?_⟩⟩
    · have hsum : b'.exponent = ((b'.exponent - b.exponent).toNat : ℤ) + b.exponent := by omega
      rw [Nat.cast_pow, Nat.cast_ofNat, ← zpow_natCast, ← zpow_add₀ two_ne_zero, ← hsum]
    · exact Nat.le_self_pow (by omega) 2
  · exact ⟨1, by rw [heq, Nat.cast_one, one_mul], .inr ⟨heq, hlt, rfl⟩⟩

/-- Above the finest grid, what rounds to a number reaches less far down only from the first number
of its grid. -/
theorem Canonical.quartersBelow_of_lt (hb : b.Canonical) (h : minExponent < b.exponent) :
    b.mantissa = leastNormal ∧ b.quartersBelow = 1 ∨
      leastNormal < b.mantissa ∧ b.quartersBelow = 2 := by
  have hnormal := hb.normal h
  unfold quartersBelow
  by_cases hfirst : b.mantissa = leastNormal
  · exact .inl ⟨hfirst, if_pos ⟨hfirst, h⟩⟩
  · exact .inr ⟨by omega, if_neg fun hboth => hfirst hboth.1⟩

theorem Takes.not_before (hb : b.Canonical) (hb' : b'.Canonical) (h : b.Takes v) (h' : b'.Takes v) :
    ¬b.Before b' := by
  intro hbefore
  obtain ⟨f, hunit, hf⟩ := hbefore.exists_factor
  have hpos : (0 : ℚ) < 2 ^ b.exponent := by positivity
  set low := 4 * b'.mantissa - b'.quartersBelow with hlow
  have hscale : (low : ℚ) * 2 ^ b'.exponent = (low * f : ℕ) * 2 ^ b.exponent := by
    rw [hunit]
    push_cast
    ring
  -- What rounds to `b'` starts where what rounds to `b` ends, or later.
  have hle : low * f ≤ 4 * b.mantissa + 2 := by
    have hends := h'.low.trans h.high
    rw [hscale, mul_le_mul_iff_left₀ hpos] at hends
    exact_mod_cast hends
  have hbound := hb.bound
  have hmeet : low * f = 4 * b.mantissa + 2 ∧ ¬(b.mantissa % 2 = 0 ∧ b'.mantissa % 2 = 0) := by
    rcases hf with ⟨hlt, hf⟩ | ⟨-, hlt, rfl⟩
    · have htwice : low * 2 ≤ low * f := Nat.mul_le_mul_left low hf
      have hbelow := hb'.quartersBelow_of_lt (hb.finest.trans_lt hlt)
      omega
    · have hbelow := b'.quartersBelow_cases
      omega
  obtain ⟨hmeet, hodd⟩ := hmeet
  rw [hmeet] at hscale
  have hhigh : 4 * v = (4 * b.mantissa + 2 : ℕ) * 2 ^ b.exponent :=
    le_antisymm h.high (hscale ▸ h'.low)
  exact hodd ⟨h.even_of_high hhigh, h'.even_of_low (hhigh.trans hscale.symm)⟩

/-- **No value rounds to two numbers.** -/
theorem Takes.unique (hb : b.Canonical) (hb' : b'.Canonical) (h : b.Takes v) (h' : b'.Takes v) :
    b = b' := by
  by_contra hne
  rcases before_or_before hne with hbefore | hbefore
  · exact h.not_before hb hb' h' hbefore
  · exact h'.not_before hb' hb h hbefore

end Binary

/-! ## Decimals written out -/

/-- The text has digits, and a point between two of them if any, and stands for the value. -/
inductive Written : List Char → ℚ → Prop where
  | whole {cs : List Char} (hne : cs ≠ []) (hdigits : ∀ c ∈ cs, isDigit c = true) :
      Written cs (Nat.ofDigitChars 10 cs 0)
  | point {whole fraction : List Char} (hne : whole ≠ [])
      (hdigits : ∀ c ∈ whole ++ fraction, isDigit c = true) :
      Written (whole ++ '.' :: fraction)
        (Nat.ofDigitChars 10 (whole ++ fraction) 0 / 10 ^ fraction.length)

theorem ne_point_of_isDigit {c : Char} (h : isDigit c = true) : c ≠ '.' := by
  rintro rfl
  exact absurd h (by decide)

theorem point_notMem {cs : List Char} (h : ∀ c ∈ cs, isDigit c = true) : '.' ∉ cs :=
  fun hmem => ne_point_of_isDigit (h '.' hmem) rfl

/-- A text stands for one value. -/
theorem Written.unique {cs : List Char} {v v' : ℚ} (h : Written cs v) (h' : Written cs v') :
    v = v' := by
  generalize htext : cs = text at h'
  cases h with
  | whole _ hdigits =>
    cases h' with
    | whole => rw [htext]
    | point => exact absurd (by simp [htext]) (point_notMem hdigits)
  | @point whole fraction _ hdigits =>
    obtain ⟨hwhole, hfraction⟩ := List.forall_mem_append.mp hdigits
    cases h' with
    | whole _ hdigits' => exact absurd (by simp [← htext]) (point_notMem hdigits')
    | point =>
      rw [List.append_cons_inj_of_notMem (point_notMem hwhole) (point_notMem hfraction)] at htext
      obtain ⟨rfl, -, rfl⟩ := htext
      rfl

theorem Written.head {cs : List Char} {v : ℚ} (h : Written cs v) :
    ∃ c rest, cs = c :: rest ∧ isDigit c = true := by
  cases h with
  | whole hne hdigits =>
    obtain ⟨c, rest, rfl⟩ := List.exists_cons_of_ne_nil hne
    exact ⟨c, rest, rfl, hdigits c List.mem_cons_self⟩
  | @point whole fraction hne hdigits =>
    obtain ⟨c, rest, rfl⟩ := List.exists_cons_of_ne_nil hne
    exact ⟨c, rest ++ '.' :: fraction, rfl, hdigits c List.mem_cons_self⟩

theorem Written.chars {cs : List Char} {v : ℚ} (h : Written cs v) :
    ∀ c ∈ cs, isDigit c = true ∨ c = '.' := by
  cases h with
  | whole _ hdigits => exact fun c hc => .inl (hdigits c hc)
  | @point whole fraction _ hdigits =>
    intro c hc
    simp only [List.mem_append, List.mem_cons] at hc hdigits
    rcases hc with hc | rfl | hc
    · exact .inl (hdigits c (.inl hc))
    · exact .inr rfl
    · exact .inl (hdigits c (.inr hc))

theorem isDigit_of_mem_toDigits {n : ℕ} {c : Char} (h : c ∈ Nat.toDigits 10 n) :
    isDigit c = true := by
  have hdigit := Nat.isDigit_of_mem_toDigits (by decide) (by decide) h
  simpa [isDigit, Char.isDigit, Char.le_def, UInt32.le_iff_toNat_le] using hdigit

theorem isDigit_of_mem_zeros {n : ℕ} {c : Char} (h : c ∈ List.replicate n '0') :
    isDigit c = true := by
  rw [List.eq_of_mem_replicate h]
  decide

theorem ofDigitChars_toDigits_append_zeros (n places : ℕ) :
    Nat.ofDigitChars 10 (Nat.toDigits 10 n ++ List.replicate places '0') 0 = n * 10 ^ places := by
  rw [Nat.ofDigitChars_append, Nat.ofDigitChars_ten_toDigits, Nat.ofDigitChars_replicate_zero,
    Nat.mul_comm]

theorem ofDigitChars_zeros_append_toDigits (n places : ℕ) :
    Nat.ofDigitChars 10 (List.replicate places '0' ++ Nat.toDigits 10 n) 0 = n := by
  rw [Nat.ofDigitChars_append, Nat.ofDigitChars_replicate_zero, Nat.mul_zero,
    Nat.ofDigitChars_ten_toDigits]

theorem Decimal.written_point {d : Decimal} {whole fraction : List Char} (hne : whole ≠ [])
    (hdigits : ∀ c ∈ whole ++ fraction, isDigit c = true)
    (hvalue : Nat.ofDigitChars 10 (whole ++ fraction) 0 = d.digits)
    (hplaces : d.exponent = -fraction.length) :
    Written (whole ++ '.' :: fraction) d.value := by
  have hquotient :
      d.value = Nat.ofDigitChars 10 (whole ++ fraction) 0 / 10 ^ fraction.length := by
    rw [value, hplaces, zpow_neg, zpow_natCast, hvalue, div_eq_mul_inv]
  rw [hquotient]
  exact .point hne hdigits

/-- **A decimal written out stands for its value.** -/
theorem Decimal.written_positional (d : Decimal) : Written d.positional.toList d.value := by
  have hdigits : ∀ c ∈ Nat.toDigits 10 d.digits, isDigit c = true := fun c =>
    isDigit_of_mem_toDigits
  have hne : Nat.toDigits 10 d.digits ≠ [] := Nat.toDigits_ne_nil
  have hvalue := ofDigitChars_zeros_append_toDigits d.digits
  unfold positional
  simp only [String.toList_ofList]
  split
  · rename_i hnonneg
    have hwhole : d.value = Nat.ofDigitChars 10
        (Nat.toDigits 10 d.digits ++ List.replicate d.exponent.toNat '0') 0 := by
      rw [ofDigitChars_toDigits_append_zeros, value, Nat.cast_mul, Nat.cast_pow,
        Nat.cast_ofNat, ← zpow_natCast, Int.toNat_of_nonneg hnonneg]
    rw [hwhole]
    exact .whole (by simp [hne])
      (List.forall_mem_append.mpr ⟨hdigits, fun c => isDigit_of_mem_zeros⟩)
  · split
    · rename_i hneg hplaces
      refine written_point ?_ ?_ ?_ ?_
      · rw [ne_eq, List.take_eq_nil_iff, not_or]
        exact ⟨by omega, hne⟩
      · rwa [List.take_append_drop]
      · rw [List.take_append_drop]
        exact hvalue 0
      · rw [List.length_drop]
        omega
    · rename_i hneg hplaces
      set zeros := List.replicate ((-d.exponent).toNat - (Nat.toDigits 10 d.digits).length) '0'
        with hzeros
      have hpoint : Written (['0'] ++ '.' :: (zeros ++ Nat.toDigits 10 d.digits)) d.value := by
        refine written_point (by simp) ?_ (hvalue _) ?_
        · refine List.forall_mem_append.mpr ⟨List.forall_mem_singleton.mpr rfl, ?_⟩
          exact List.forall_mem_append.mpr ⟨fun c => isDigit_of_mem_zeros, hdigits⟩
        · rw [List.length_append, hzeros, List.length_replicate]
          omega
      exact hpoint

/-! ## Texts of numbers -/

theorem Binary.takes_zero {b : Binary} (hb : b.mantissa = 0) : b.Takes 0 := by
  have hlow : 4 * b.mantissa - b.quartersBelow = 0 := by omega
  have heven : b.mantissa % 2 = 0 := by omega
  refine ⟨?_, ?_, fun _ => heven, fun _ => heven⟩
  · rw [hlow, Nat.cast_zero, zero_mul, mul_zero]
  · rw [mul_zero]
    positivity

/-- The text of a magnitude stands for a value that rounds to it. -/
theorem Binary.exists_written (b : Binary) : ∃ v, Written b.text.toList v ∧ b.Takes v := by
  unfold text
  split
  · rename_i hzero
    have hwritten : Written ['0'] (Nat.ofDigitChars 10 ['0'] 0) :=
      .whole (by simp) (List.forall_mem_singleton.mpr rfl)
    exact ⟨0, hwritten, takes_zero hzero⟩
  · rename_i hne
    exact ⟨_, b.shortest.written_positional, takes_refine hne _ _⟩

/-- **Different magnitudes have different texts.** -/
theorem Binary.eq_of_text_eq {b b' : Binary} (hb : b.Canonical) (hb' : b'.Canonical)
    (h : b.text = b'.text) : b = b' := by
  obtain ⟨v, hwritten, htakes⟩ := b.exists_written
  obtain ⟨v', hwritten', htakes'⟩ := b'.exists_written
  rw [h] at hwritten
  obtain rfl := hwritten.unique hwritten'
  exact htakes.unique hb hb' htakes'

/-- The text of a finite number: a minus sign if it is negative, and the text of its magnitude. -/
theorem text_of_finite {x : Float} {negative : Bool} {b : Binary}
    (h : Form.ofFloat x = .finite negative b) :
    (text x).toList = (if negative then ['-'] else []) ++ b.text.toList := by
  unfold text
  rw [h]
  cases negative <;> simp

/-- The text of a finite number starts with a digit or a minus sign, and goes on with digits and
points. -/
theorem chars_text {x : Float} (h : x.isFinite = true) :
    ∃ c rest, (text x).toList = c :: rest ∧ (isDigit c = true ∨ c = '-') ∧
      ∀ d ∈ rest, isDigit d = true ∨ d = '.' := by
  obtain ⟨negative, b, hform, -⟩ := ofFloat_of_isFinite h
  obtain ⟨v, hwritten, -⟩ := b.exists_written
  obtain ⟨c, rest, htext, hc⟩ := hwritten.head
  have hchars := hwritten.chars
  rw [text_of_finite hform]
  cases negative with
  | true => exact ⟨'-', b.text.toList, rfl, .inr rfl, hchars⟩
  | false =>
    rw [htext] at hchars ⊢
    exact ⟨c, rest, rfl, .inl hc, (List.forall_mem_cons.mp hchars).2⟩

theorem Binary.text_ne_minus {b : Binary} {cs : List Char} : b.text.toList ≠ '-' :: cs := by
  obtain ⟨v, hwritten, -⟩ := b.exists_written
  obtain ⟨c, rest, htext, hc⟩ := hwritten.head
  rw [htext]
  rintro ⟨⟩
  exact absurd hc (by decide)

/-- **Different finite numbers have different texts.** -/
theorem eq_of_text_eq {x y : Float} (hx : x.isFinite = true) (hy : y.isFinite = true)
    (h : text x = text y) : x = y := by
  obtain ⟨negative, b, hform, hb⟩ := ofFloat_of_isFinite hx
  obtain ⟨negative', b', hform', hb'⟩ := ofFloat_of_isFinite hy
  have htext := congrArg String.toList h
  rw [text_of_finite hform, text_of_finite hform'] at htext
  have hboth : negative = negative' ∧ b.text.toList = b'.text.toList := by
    cases negative <;> cases negative'
    · exact ⟨rfl, htext⟩
    · exact absurd htext Binary.text_ne_minus
    · exact absurd htext.symm Binary.text_ne_minus
    · exact ⟨rfl, (List.cons.inj htext).2⟩
  obtain ⟨rfl, hmagnitude⟩ := hboth
  obtain rfl := Binary.eq_of_text_eq hb hb' (String.toList_inj.mp hmagnitude)
  exact eq_of_ofFloat hform hform'

end Numeral

end BlockScript
