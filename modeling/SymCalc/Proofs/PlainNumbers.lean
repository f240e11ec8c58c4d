import Mathlib
import SymCalc.Proofs.Printing

/-!
# Plain numbers

Numbers that stand in programs are finite and not negative, and such numbers are printed as a
digit followed by digits, points and exponents. Main statements: the nearest number to a quotient
is finite, and the numbers read from plain numerals are printed so.
-/

namespace SymCalc

namespace Number

/-- A character that plain numbers are made of. -/
def isNumberChar (c : Char) : Bool :=
  c.isDigit || c = '.' || c = 'e' || c = '+' || c = '-'

/-- The decimal digits of a whole number are digits. -/
theorem isDigit_of_mem_digitsOf {n : Nat} {c : Char} (h : c ∈ digitsOf n) : c.isDigit = true :=
  Nat.isDigit_of_mem_toDigits (by decide) (by decide) h

/-- The digits of a decimal number are digits. -/
def Decimal.Proper (d : Decimal) : Prop := ∀ c ∈ d.digits, c.isDigit = true

/-- Digits of a whole number are proper, without the zeros at the end. -/
theorem Decimal.proper_ofScaled (n : Nat) (place : Int) : (Decimal.ofScaled n place).Proper := by
  intro c hc
  have hmem : c ∈ (digitsOf n).reverse :=
    (List.dropWhile_sublist _).mem (List.mem_reverse.mp hc)
  exact isDigit_of_mem_digitsOf (List.mem_reverse.mp hmem)

/-- The fewest digits are digits. -/
theorem proper_fewestDigits (value low high : Ratio) (ends : Bool) (first : Int)
    (limit count : Nat) : (fewestDigits value low high ends first limit count).Proper := by
  induction limit generalizing count with
  | zero => exact Decimal.proper_ofScaled _ _
  | succ limit ih =>
    rw [fewestDigits]
    split
    · exact Decimal.proper_ofScaled _ _
    · exact Decimal.proper_ofScaled _ _
    · exact Decimal.proper_ofScaled _ _
    · exact ih _

/-- The digits of a number are digits. -/
theorem proper_decimalOf (m : Nat) (q : Int) : (decimalOf m q none).Proper := by
  rw [decimalOf]
  split
  · exact List.forall_mem_nil _
  · exact proper_fewestDigits _ _ _ _ _ _ _

/-- Digits taken from digits, with zeros after them, are digits. -/
theorem isDigit_of_mem_takeDigits {count : Nat} {digits : List Char}
    (h : ∀ c ∈ digits, c.isDigit = true) {c : Char} (hc : c ∈ takeDigits count digits) :
    c.isDigit = true := by
  rcases List.mem_append.mp (List.mem_of_mem_take hc) with hmem | hmem
  · exact h c hmem
  · rw [List.eq_of_mem_replicate hmem]
    rfl

/-- A digit and then characters of numbers. -/
def PlainChars (cs : List Char) : Prop :=
  ∃ c rest, cs = c :: rest ∧ c.isDigit = true ∧ ∀ d ∈ rest, isNumberChar d = true

/-- Digits are characters of numbers. -/
theorem isNumberChar_of_isDigit {c : Char} (h : c.isDigit = true) : isNumberChar c = true := by
  simp [isNumberChar, h]

/-- Digits before characters of numbers are plain. -/
theorem plainChars_append {cs ds : List Char} (hne : cs ≠ []) (hcs : ∀ c ∈ cs, c.isDigit = true)
    (hds : ∀ c ∈ ds, isNumberChar c = true) : PlainChars (cs ++ ds) := by
  obtain ⟨c, cs, rfl⟩ := List.exists_cons_of_ne_nil hne
  obtain ⟨hc, hcs⟩ := List.forall_mem_cons.mp hcs
  exact ⟨c, cs ++ ds, rfl, hc,
    List.forall_mem_append.mpr ⟨fun b hb => isNumberChar_of_isDigit (hcs b hb), hds⟩⟩

/-- An exponent is made of characters of numbers. -/
theorem isNumberChar_of_mem_exponentText {e : Int} {c : Char} (h : c ∈ exponentText e) :
    isNumberChar c = true := by
  have hsign : isNumberChar (if e < 0 then '-' else '+') = true := by split <;> rfl
  rcases List.mem_cons.mp h with rfl | hc
  · exact hsign
  · split at hc
    · rcases List.mem_cons.mp hc with rfl | hc
      · rfl
      · exact isNumberChar_of_isDigit (isDigit_of_mem_digitsOf hc)
    · exact isNumberChar_of_isDigit (isDigit_of_mem_digitsOf hc)

/-- A point and digits are made of characters of numbers. -/
theorem isNumberChar_of_mem_fraction {count : Nat} {digits : List Char}
    (h : ∀ c ∈ digits, c.isDigit = true) :
    ∀ c ∈ '.' :: takeDigits count digits, isNumberChar c = true :=
  List.forall_mem_cons.mpr
    ⟨rfl, fun _ hc => isNumberChar_of_isDigit (isDigit_of_mem_takeDigits h hc)⟩

/-- A number with an exponent is plain. -/
theorem plainChars_scientificText {d : Decimal} (h : d.Proper) (places : Nat) :
    PlainChars (scientificText d places) := by
  have hhead : (d.digits.headD '0').isDigit = true := by
    cases hdigits : d.digits with
    | nil => rfl
    | cons c cs => exact h c (hdigits ▸ List.mem_cons_self)
  refine ⟨_, _, rfl, hhead, List.forall_mem_append.mpr ⟨?_, ?_⟩⟩
  · split
    · exact List.forall_mem_nil _
    · exact isNumberChar_of_mem_fraction fun c hc => h c (List.mem_of_mem_drop hc)
  · exact List.forall_mem_cons.mpr ⟨rfl, fun _ => isNumberChar_of_mem_exponentText⟩

/-- A number with decimal places is plain. -/
theorem plainChars_positionalText {d : Decimal} (h : d.Proper) (places : Nat) :
    PlainChars (positionalText d places) := by
  unfold positionalText
  dsimp only
  generalize hwhole : (if (d.digits.isEmpty || decide ((d.exponent + 1).toNat = 0)) = true
    then ['0'] else takeDigits (d.exponent + 1).toNat d.digits) = whole
  have hne : whole ≠ [] := by
    rintro rfl
    split at hwhole
    · cases hwhole
    · rename_i hsize
      have hlength := length_takeDigits (d.exponent + 1).toNat d.digits
      rw [hwhole] at hlength
      simp [← hlength] at hsize
  have hdigits : ∀ c ∈ whole, c.isDigit = true := by
    rw [← hwhole]
    split
    · exact List.forall_mem_singleton.mpr rfl
    · exact fun c hc => isDigit_of_mem_takeDigits h hc
  have hfraction : ∀ zeros size, ∀ c ∈ List.replicate zeros '0' ++ d.digits.drop size,
      c.isDigit = true := by
    intro zeros size
    refine List.forall_mem_append.mpr ⟨fun c hc => ?_, fun c hc => h c (List.mem_of_mem_drop hc)⟩
    rw [List.eq_of_mem_replicate hc]
    rfl
  split
  · have hplain := plainChars_append hne hdigits (List.forall_mem_nil _)
    rwa [List.append_nil] at hplain
  · exact plainChars_append hne hdigits (isNumberChar_of_mem_fraction (hfraction _ _))

/-- A number in the plainest layout is plain. -/
theorem plainChars_write (m : Nat) (q : Int) : PlainChars (Layout.general.write m q none) := by
  change PlainChars (generalText (decimalOf m q none) _)
  unfold generalText
  split
  · exact plainChars_scientificText (proper_decimalOf m q) _
  · exact plainChars_positionalText (proper_decimalOf m q) _

/-- The template for plain numbers writes a finite number without a sign as it is. -/
theorem fill_plain {x : Float} {m : Nat} {q : Int}
    (hx : Binary64.ofFloat x = .finite false m q) :
    fill "%v" x = Text.ofChars (Layout.general.write m q none) := by
  have hfill : fill "%v" x =
      Text.ofString "" ++ Text.ofChars (writePlain {} x) ++ Text.ofString "" := rfl
  have hplain : writePlain {} x = Layout.general.write m q none := by
    unfold writePlain writeAs
    rw [hx]
    simp [placeSigned, signOf, Directive.pad, Directive.padding]
  rw [hfill, hplain, Text.append_nil, Text.nil_append]

open Float.Model in
/-- The exponent field is the one above the lowest 52 bits. -/
theorem toNat_unpackExponent (b : BitVec 64) :
    (@UnpackedFloat.unpackExponent .binary64 b).toNat = b.toNat / 2 ^ 52 % 2 ^ 11 := by
  simp [UnpackedFloat.unpackExponent, BitVec.extractLsb_toNat, Nat.shiftRight_eq_div_pow]

open Float.Model in
/-- Bits below those of infinity are kept. -/
theorem toBits_ofBits {bits : UInt64} (h : bits.toNat < 2047 * 2 ^ 52) :
    (Float.ofBits bits).toBits = bits := by
  have hexponent : @UnpackedFloat.unpackExponent .binary64 bits.toBitVec ≠ -1#11 := by
    intro heq
    have hnat := congrArg BitVec.toNat heq
    rw [toNat_unpackExponent] at hnat
    change bits.toNat / 2 ^ 52 % 2 ^ 11 = 2047 at hnat
    omega
  have hnan : ¬@UnpackedFloat.isNaNBits .binary64 bits.toBitVec = true := by
    intro hnan
    exact hexponent (of_decide_eq_true hnan).1
  have hpack := @UnpackedFloat.pack_unpack .binary64 bits.toBitVec (by decide)
  rw [if_neg hnan] at hpack
  exact UInt64.toBitVec_inj.mp hpack

/-- Bits below those of infinity stand for a finite number that is not negative. -/
theorem exists_finite {bits : UInt64} (h : bits.toNat < 2047 * 2 ^ 52) :
    ∃ m q, Binary64.ofBits bits = .finite false m q := by
  have hnegative : (bits >>> 63 == 1) = false := by
    rw [beq_eq_false_iff_ne]
    intro heq
    have hnat := congrArg UInt64.toNat heq
    rw [UInt64.toNat_shiftRight] at hnat
    change bits.toNat >>> 63 = 1 at hnat
    rw [Nat.shiftRight_eq_div_pow] at hnat
    omega
  have hbiased : ((bits >>> 52) &&& 0x7FF).toNat ≠ 0x7FF := by
    rw [UInt64.toNat_and, UInt64.toNat_shiftRight]
    change bits.toNat >>> 52 &&& 2 ^ 11 - 1 ≠ 0x7FF
    rw [Nat.and_two_pow_sub_one_eq_mod, Nat.shiftRight_eq_div_pow]
    omega
  unfold Binary64.ofBits
  rw [if_neg hbiased, hnegative]
  split
  · exact ⟨_, _, rfl⟩
  · exact ⟨_, _, rfl⟩

/-- A quotient with a power of two taken out, as two whole numbers. -/
def scaled (num den : Nat) (e : Int) : Nat × Nat :=
  if 0 ≤ e then (num, den * Nat.pow 2 e.toNat) else (num * Nat.pow 2 (-e).toNat, den)

/-- A scaled quotient compared with a whole number. -/
theorem scaled_div_lt {num den : Nat} (hden : 0 < den) (n : Nat) (e : Int) :
    (scaled num den e).1 / (scaled num den e).2 < n ↔ (num : ℚ) < n * (den * 2 ^ e) := by
  have hpow (k : Nat) : 0 < Nat.pow 2 k := Nat.pow_pos (by decide)
  unfold scaled
  split
  · rename_i he
    obtain ⟨k, rfl⟩ := Int.eq_ofNat_of_zero_le he
    rw [Nat.div_lt_iff_lt_mul (Nat.mul_pos hden (hpow _)), ← Nat.cast_lt (α := ℚ)]
    push_cast
    simp
  · rename_i he
    obtain ⟨k, hk⟩ := Int.eq_ofNat_of_zero_le (show 0 ≤ -e by omega)
    obtain rfl : e = -k := by omega
    rw [Nat.div_lt_iff_lt_mul hden, ← Nat.cast_lt (α := ℚ)]
    push_cast
    rw [neg_neg, Int.toNat_natCast, zpow_neg, zpow_natCast, ← mul_assoc, ← div_eq_mul_inv,
      lt_div_iff₀ (by positivity), Nat.pow_eq, Nat.cast_pow, Nat.cast_ofNat]

/-- A quotient with as many bits taken out as its logarithms tell has at most 53 bits left. -/
theorem lt_of_log2 (num : Nat) {den : Nat} (hden : den ≠ 0) :
    (num : ℚ) < (2 ^ 53 : Nat) * (den * 2 ^ ((Nat.log2 num : Int) - Nat.log2 den - 52)) := by
  have hlt : (num : ℚ) < 2 ^ (Nat.log2 num + 1) := by exact_mod_cast Nat.lt_log2_self
  have hle : (2 : ℚ) ^ Nat.log2 den ≤ den := by exact_mod_cast Nat.log2_self_le hden
  calc
    (num : ℚ) < 2 ^ (Nat.log2 num + 1) := hlt
    _ = 2 ^ 53 * (2 ^ Nat.log2 den * 2 ^ ((Nat.log2 num : Int) - Nat.log2 den - 52)) := by
      rw [← zpow_natCast, ← zpow_natCast, ← zpow_natCast, ← zpow_add₀ (by norm_num),
        ← zpow_add₀ (by norm_num)]
      congr 1
      push_cast
      ring
    _ ≤ (2 ^ 53 : Nat) * (den * 2 ^ ((Nat.log2 num : Int) - Nat.log2 den - 52)) := by
      rw [Nat.cast_pow, Nat.cast_ofNat]
      gcongr

/-- The exponent that leaves a full significand. -/
def fullExponent (num den : Nat) : Int :=
  let guess : Int := (Nat.log2 num : Int) - Nat.log2 den - 52
  if (scaled num den guess).1 / (scaled num den guess).2 < Nat.pow 2 52 then guess - 1 else guess

/-- From the exponent of a full significand on, at most 53 bits are left. -/
theorem lt_of_fullExponent {num den : Nat} (hden : den ≠ 0) {e : Int}
    (he : fullExponent num den ≤ e) :
    (scaled num den e).1 / (scaled num den e).2 < 2 ^ 53 := by
  have hpos := Nat.pos_of_ne_zero hden
  rw [scaled_div_lt hpos]
  have hfull : (num : ℚ) < (2 ^ 53 : Nat) * (den * 2 ^ fullExponent num den) := by
    unfold fullExponent
    dsimp only
    split
    · rename_i hguess
      rw [scaled_div_lt hpos] at hguess
      calc
        (num : ℚ) < _ := hguess
        _ = _ := by
          rw [zpow_sub_one₀ (by norm_num)]
          push_cast
          ring
    · exact lt_of_log2 num hden
  refine lt_of_lt_of_le hfull ?_
  gcongr
  norm_num

/-- The bits of a significand and its exponent, unless the exponent is too large. -/
def packed? (significand : Nat) (exponent : Int) : Option UInt64 :=
  if Binary64.maxExponent < exponent then none
  else if significand < Nat.pow 2 52 then some significand.toUInt64
  else
    some (((exponent - Binary64.minExponent).toNat + 1).toUInt64 <<< 52 |||
      (significand - Nat.pow 2 52).toUInt64)

/-- Bits are below those of infinity if the significand has at most 53 of them. -/
theorem packed?_lt {significand : Nat} {exponent : Int} {bits : UInt64}
    (hsignificand : significand < 2 ^ 53) (h : packed? significand exponent = some bits) :
    bits.toNat < 2047 * 2 ^ 52 := by
  have hnat {n : Nat} (hn : n < 2 ^ 64) : n.toUInt64.toNat = n := UInt64.toNat_ofNat_of_lt' hn
  unfold packed? at h
  split at h
  · cases h
  rename_i hmax
  split at h
  · rename_i hsmall
    have hsmall : significand < 2 ^ 52 := hsmall
    cases h
    rw [hnat (by omega)]
    omega
  · have hbiased : (exponent - Binary64.minExponent).toNat + 1 ≤ 2046 := by
      unfold Binary64.maxExponent at hmax
      unfold Binary64.minExponent
      omega
    have hfraction : significand - Nat.pow 2 52 < 2 ^ 52 := by
      rw [Nat.pow_eq]
      omega
    cases h
    generalize (exponent - Binary64.minExponent).toNat + 1 = biased at hbiased ⊢
    generalize significand - Nat.pow 2 52 = fraction at hfraction ⊢
    rw [UInt64.toNat_or, UInt64.toNat_shiftLeft, hnat (by omega), hnat (by omega)]
    change (biased <<< 52 % 2 ^ 64 ||| fraction) < _
    rw [Nat.mod_eq_of_lt (by rw [Nat.shiftLeft_eq]; omega),
      ← Nat.shiftLeft_add_eq_or_of_lt hfraction, Nat.shiftLeft_eq]
    omega

/-- The nearest number is the rounded significand with its exponent; rounding may carry. -/
theorem nearestBits?_eq {num : Nat} (hnum : num ≠ 0) (den : Nat) :
    nearestBits? num den =
      let exponent := max (fullExponent num den) Binary64.minExponent
      let significand := roundDiv (scaled num den exponent).1 (scaled num den exponent).2
      if significand = Nat.pow 2 53 then packed? (Nat.pow 2 52) (exponent + 1)
      else packed? significand exponent := by
  unfold nearestBits?
  rw [if_neg hnum]
  exact apply_ite (fun p : Nat × Int => packed? p.1 p.2) _ _ _

/-- The nearest number to a quotient is finite. -/
theorem nearestBits?_lt {num den : Nat} (hden : den ≠ 0) {bits : UInt64}
    (h : nearestBits? num den = some bits) : bits.toNat < 2047 * 2 ^ 52 := by
  by_cases hnum : num = 0
  · rw [hnum] at h
    cases h
    decide
  rw [nearestBits?_eq hnum] at h
  dsimp only at h
  split at h
  · exact packed?_lt (by decide) h
  · rename_i hcarry
    refine packed?_lt (lt_of_le_of_ne ?_ hcarry) h
    have hwhole := lt_of_fullExponent hden (le_max_left (fullExponent num den) Binary64.minExponent)
    rcases roundDiv_eq_or (scaled num den _).1 (scaled num den _).2 with hround | hround
    · rw [hround]
      exact hwhole.le
    · rw [hround]
      exact hwhole

/-- A numeral is read as the bits of a finite number. -/
theorem bits?_lt {n : Numeral} {bits : UInt64} (h : n.bits? = some bits) :
    bits.toNat < 2047 * 2 ^ 52 := by
  have hpow (base : Nat) (hbase : base ≠ 0) (k : Nat) : Nat.pow base k ≠ 0 := pow_ne_zero k hbase
  have hbase : (Numeral.placeOf n.radix).2 ≠ 0 := by cases n.radix <;> decide
  unfold Numeral.bits? at h
  dsimp only at h
  split at h
  · cases h
    decide
  split at h
  · cases h
  split at h
  · cases h
    decide
  split at h
  · exact nearestBits?_lt one_ne_zero h
  · exact nearestBits?_lt (hpow _ hbase _) h

/-- What starts with a digit is no word for infinity or for not-a-number. -/
theorem lowered_ne {d c : Char} (hd : d.isDigit = true) (hc : c.isDigit = false)
    (ds cs : List Char) : lowered (d :: ds) ≠ String.ofList (c :: cs) := by
  have hlower : d.toLower = d :=
    forall_char_lt (fun b => b.isDigit = true → b.toLower = b) (by decide) d
      (toNat_lt_of_isDigit hd) hd
  intro h
  have hchars := congrArg String.toList h
  rw [lowered, String.toList_ofList, String.toList_ofList, List.map_cons, hlower] at hchars
  rw [(List.cons.inj hchars).1, hc] at hd
  cases hd

/-- What is read from a plain numeral is a finite number that is not negative. -/
theorem exists_finite_of_read {t : Text} {x : Float} (ht : IsNumeral t) (h : read t = .ok x) :
    ∃ m q, Binary64.ofFloat x = .finite false m q := by
  obtain ⟨d, ds, rfl, hd, -, -⟩ := ht.exists_chars
  have hsign : d ≠ '-' ∧ d ≠ '+' := by
    constructor <;> rintro rfl <;> cases hd
  have hread : read (Text.ofChars (d :: ds)) = readUnsigned false (d :: ds) := by
    unfold read
    rw [Text.chars_ofChars]
    split
    · rename_i heq
      exact absurd (List.cons.inj heq).1 hsign.1
    · rename_i heq
      exact absurd (List.cons.inj heq).1 hsign.2
    · exact if_neg (lowered_ne hd (by decide) ds ['a', 'n'])
  have hinfinite : ¬(decide (lowered (d :: ds) = "inf") ||
      decide (lowered (d :: ds) = "infinity")) = true := by
    rw [Bool.or_eq_true, decide_eq_true_eq, decide_eq_true_eq]
    rintro (heq | heq)
    · exact lowered_ne hd (by decide) ds ['n', 'f'] heq
    · exact lowered_ne hd (by decide) ds "nfinity".toList heq
  rw [hread, readUnsigned, if_neg hinfinite] at h
  split at h
  · cases h
  split at h
  · cases h
  split at h
  · cases h
  rename_i bits hbits
  cases h
  rw [Binary64.ofFloat, toBits_ofBits (bits?_lt hbits)]
  exact exists_finite (bits?_lt hbits)

end Number

/-- A number as it is printed. -/
def Constant.numberText {M : Type} [Numeric M] (m : M) : Text :=
  (Constant.scalar (.number m) : Constant M).text

/-- What is asked of printed numbers: one is not zero, and a number that is read from a plain
numeral is printed as a digit and further characters, none of them a closing angle bracket. -/
structure Numeric.WritesDigits (M : Type) [Numeric M] : Prop where
  /-- One equals itself. -/
  one_eq : ((1 : M) == 1) = true
  /-- One is not zero. -/
  one_ne_zero : Magnitude.isZero (1 : M) = false
  /-- Numbers are printed as a digit and further characters. -/
  exists_chars : ∀ {t : Text} {m : M}, IsNumeral t → Numeric.read? t = some m →
    ∃ c cs, Constant.numberText m = Text.ofChars (c :: cs) ∧ c.isDigit = true ∧ '>' ∉ cs

/-- Binary floating point numbers are printed as a digit and further characters. -/
theorem writesDigits_float : Numeric.WritesDigits Float := by
  refine ⟨by decide, by decide, fun {t x} numeral value => ?_⟩
  have hread : Number.read t = .ok x := by
    change (Number.read t).toOption = some x at value
    cases hread : Number.read t with
    | error fault =>
      rw [hread] at value
      cases value
    | ok y =>
      rw [hread] at value
      rw [Option.some.inj value]
  obtain ⟨m, q, hfinite⟩ := Number.exists_finite_of_read numeral hread
  obtain ⟨c, cs, hplain, hc, hcs⟩ := Number.plainChars_write m q
  change ∃ d ds, Term.assemble Numeric.write x false [] = Text.ofChars (d :: ds) ∧ _
  rw [Term.assemble]
  split
  · exact ⟨'0', [], rfl, rfl, List.not_mem_nil⟩
  · refine ⟨c, cs, ?_, hc, fun hmem => ?_⟩
    · rw [← hplain]
      exact Number.fill_plain hfinite
    · cases hcs _ hmem

end SymCalc
