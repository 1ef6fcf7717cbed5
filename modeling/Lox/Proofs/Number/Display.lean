import Lox.Proofs.Number.Shortest
import Lox.Proofs.Token.Spacing
import Lox.Value

/-!
# Numbers that are displayed

The text of a finite number is a numeral, behind a minus if the number has a sign, and reads back as the
number. It is the same whether a whole number is written as a machine integer or by its shortest decimal.
-/

namespace Lox

/-! ### Digits -/

namespace Decimal

/-- The digits of a natural number spell it. -/
theorem decimalValue_toDigits (n : Nat) : decimalValue (Nat.toDigits 10 n) = n :=
  Nat.ofDigitChars_ten_toDigits

theorem toList_pushn (c : Char) (n : Nat) : ("".pushn c n).toList = List.replicate n c := by
  rw [String.pushn_eq_repeat_push]
  induction n with
  | zero => rfl
  | succ n ih =>
    rw [List.replicate_succ', ← ih]
    exact String.toList_push ..

theorem toList_padded (width n : Nat) : (padded width n).toList =
    List.replicate (width - (Nat.toDigits 10 n).length) '0' ++ Nat.toDigits 10 n := by
  simp only [padded, String.toList_append, toList_pushn, Nat.toString_eq_repr, Nat.toList_repr,
    ← String.length_toList]

theorem isDigit_of_mem_toDigits {n : Nat} {c : Char} (h : c ∈ Nat.toDigits 10 n) : IsDigit c :=
  isDigit_iff.1 (Nat.isDigit_of_mem_toDigits (by decide) (by decide) h)

theorem isDigit_of_mem_padded {width n : Nat} {c : Char} (h : c ∈ (padded width n).toList) :
    IsDigit c := by
  rw [toList_padded] at h
  rcases List.mem_append.1 h with h | h
  · rw [List.eq_of_mem_replicate h, ← isDigit_iff]
    rfl
  · exact isDigit_of_mem_toDigits h

/-- Filled up to a width, a number that has no more digits has exactly as many. -/
theorem length_padded {width n : Nat} (hwidth : 0 < width) (h : n < 10 ^ width) :
    (padded width n).toList.length = width := by
  have hle := (Nat.length_toDigits_le_iff (by decide) hwidth).2 h
  rw [toList_padded, List.length_append, List.length_replicate]
  omega

/-- Digits before a filled number are worth as much as the width says. -/
theorem decimalValue_append_padded {width n : Nat} (hwidth : 0 < width) (h : n < 10 ^ width)
    (m : Nat) : decimalValue (Nat.toDigits 10 m ++ (padded width n).toList) = m * 10 ^ width + n := by
  have hle := (Nat.length_toDigits_le_iff (by decide) hwidth).2 h
  have hwhole : Nat.ofDigitChars 10 (Nat.toDigits 10 m) 0 = m := decimalValue_toDigits m
  have hpart : Nat.ofDigitChars 10 (Nat.toDigits 10 n) 0 = n := decimalValue_toDigits n
  show Nat.ofDigitChars 10 _ 0 = _
  rw [toList_padded, Nat.ofDigitChars_append, Nat.ofDigitChars_append, hwhole,
    Nat.ofDigitChars_replicate_zero, Nat.ofDigitChars_eq_ofDigitChars_zero, hpart, ← Nat.mul_assoc,
    ← Nat.pow_add, Nat.add_sub_cancel' hle, Nat.mul_comm]

/-- Positional notation is a numeral of the same value. -/
theorem lexeme_positional (d : Decimal) : Lexeme d.positional.toList (.number d.read) := by
  obtain ⟨digits, n | n⟩ := d
  · have htext : (positional ⟨digits, .ofNat n⟩).toList = Nat.toDigits 10 (digits * 10 ^ n) :=
      Nat.toList_repr
    have hvalue : numeralValue (Nat.toDigits 10 (digits * 10 ^ n)) [] =
        read ⟨digits, .ofNat n⟩ := by
      rw [numeralValue, List.append_nil, decimalValue_toDigits, Int.ofNat_eq_natCast]
      show read ⟨_, (0 : Nat)⟩ = _
      rw [read_ofNat, read_ofNat, Nat.pow_zero, Nat.mul_one]
    rw [htext, ← hvalue]
    exact .whole Nat.toDigits_ne_nil fun c hc => isDigit_of_mem_toDigits hc
  · have hlt : digits % 10 ^ (n + 1) < 10 ^ (n + 1) := Nat.mod_lt _ (Nat.pow_pos (by decide))
    have hlength := length_padded (Nat.succ_pos n) hlt
    have htext : (positional ⟨digits, .negSucc n⟩).toList =
        Nat.toDigits 10 (digits / 10 ^ (n + 1)) ++
          '.' :: (padded (n + 1) (digits % 10 ^ (n + 1))).toList := by
      simp [positional]
    have hvalue : numeralValue (Nat.toDigits 10 (digits / 10 ^ (n + 1)))
        (padded (n + 1) (digits % 10 ^ (n + 1))).toList = read ⟨digits, .negSucc n⟩ := by
      rw [numeralValue, decimalValue_append_padded (Nat.succ_pos n) hlt, hlength, Nat.div_add_mod']
      rfl
    have hne : (padded (n + 1) (digits % 10 ^ (n + 1))).toList ≠ [] :=
      List.ne_nil_of_length_pos (hlength ▸ Nat.succ_pos n)
    rw [htext, ← hvalue]
    refine .fraction Nat.toDigits_ne_nil hne fun c hc => ?_
    exact (List.mem_append.1 hc).elim isDigit_of_mem_toDigits isDigit_of_mem_padded

/-- A whole number is the same text with and without zeros at the end of its digits. -/
theorem positional_trimmed (d : Decimal) :
    ∀ n : Nat, d.exponent = n → d.trimmed.positional = toString (d.digits * 10 ^ n) := by
  fun_induction trimmed d with
  | case1 d hzero =>
    intro n _
    rw [hzero, Nat.zero_mul]
    rfl
  | case2 d _ hten ih =>
    intro n hn
    have hdigits : d.digits / 10 * 10 = d.digits :=
      Nat.div_mul_cancel (Nat.dvd_of_mod_eq_zero hten)
    have hnext := ih (n + 1) (by rw [hn]; rfl)
    rw [hnext, Nat.pow_succ', ← Nat.mul_assoc, hdigits]
  | case3 d _ _ =>
    intro n hn
    obtain ⟨digits, exponent⟩ := d
    obtain rfl : exponent = n := hn
    rfl

end Decimal

/-! ### Displaying -/

namespace Number

variable {x : Number}

/-- The whole part as a machine integer. Beyond the machine integers it is the nearest of them. -/
def toInt64 (x : Number) : Int64 :=
  let whole : Int := (x.units / unitsPerOne : Nat)
  Int64.ofIntClamp (if x.isNegative then -whole else whole)

/-- The text of a number by cases: whole numbers below `10 ^ 15` are written as machine integers, except
for the zero with a sign, and all others by their shortest decimal. -/
def displayByCases (x : Number) : String :=
  if x.isIntegral = true ∧ x.units < 10 ^ 15 * unitsPerOne then
    if x.isZero = true ∧ x.isNegative = true then "-0" else toString x.toInt64
  else signed (fun x => (x.shortest .up).positional) x

/-- A finite number is displayed as its sign and the shortest decimal of the rest. -/
theorem display_of_isFinite (h : x.isFinite = true) :
    x.display = (if x.isNegative then "-" else "") ++ (x.abs.shortest .up).positional := by
  have hnumber : x.isNaN = false :=
    decide_eq_false (Nat.not_lt_of_lt (of_decide_eq_true h))
  simp only [display, signed, hnumber, h, if_true, if_neg Bool.false_ne_true]

/-- The shortest decimal of a whole number is the number in all its digits. -/
theorem IsWhole.positional_shortest {n : Nat} (h : x.IsWhole n) (hlt : n < 10 ^ 15) :
    (x.shortest .up).positional = toString n := by
  rcases Nat.eq_zero_or_pos n with rfl | hpos
  · have hzero : x.isZero = true := by rw [← units_eq_zero_iff h.finite, h.units_eq, Nat.zero_mul]
    rw [shortest, if_pos hzero]
    rfl
  · obtain ⟨k, hdvd, hshortest⟩ : ∃ k : Nat, 10 ^ k ∣ n ∧
        x.shortest .up = Decimal.trimmed ⟨n / 10 ^ k, k⟩ := h.exists_shortest_eq hpos hlt
    rw [hshortest, Decimal.positional_trimmed _ k rfl, Nat.div_mul_cancel hdvd]

/-- Whole numbers below `10 ^ 15` are machine integers. -/
theorem toString_toInt64 {n : Nat} (h : x.units = n * unitsPerOne) (hlt : n < 10 ^ 15)
    (hsign : n = 0 → x.isNegative = false) :
    toString x.toInt64 = (if x.isNegative then "-" else "") ++ toString n := by
  have hmin : Int64.minValue.toInt = -9223372036854775808 := by decide
  have hmax : Int64.maxValue.toInt = 9223372036854775807 := by decide
  have hwhole : x.units / unitsPerOne = n := by rw [h, Nat.mul_div_cancel _ unitsPerOne_pos]
  show toString x.toInt64.toInt = _
  rw [toInt64, hwhole]
  cases hnegative : x.isNegative with
  | false =>
    rw [if_neg Bool.false_ne_true, if_neg Bool.false_ne_true,
      Int64.toInt_ofIntClamp (by omega) (by omega), String.empty_append]
    rfl
  | true =>
    rw [if_pos rfl, if_pos rfl, Int64.toInt_ofIntClamp (by omega) (by omega)]
    cases n with
    | zero =>
      rw [hsign rfl] at hnegative
      cases hnegative
    | succ n => rfl

/-- Both ways of writing a whole number come to the same text. -/
theorem display_eq_displayByCases (x : Number) : x.display = x.displayByCases := by
  unfold displayByCases
  split
  · next h =>
    obtain ⟨hintegral, hlt⟩ := h
    obtain ⟨hfinite, hdvd⟩ := Bool.and_eq_true_iff.1 hintegral
    obtain ⟨n, hn⟩ := Nat.dvd_of_mod_eq_zero (of_decide_eq_true hdvd)
    rw [Nat.mul_comm] at hn
    have hsmall : n < 10 ^ 15 := Nat.lt_of_mul_lt_mul_right (hn ▸ hlt)
    have hwhole : x.abs.IsWhole n :=
      ⟨x.isFinite_abs.trans hfinite, x.isNegative_abs, x.units_abs.trans hn⟩
    have hzero : n = 0 ↔ x.isZero = true := by
      rw [← units_eq_zero_iff hfinite, hn, Nat.mul_eq_zero, or_iff_left unitsPerOne_pos.ne']
    rw [display_of_isFinite hfinite, hwhole.positional_shortest hsmall]
    by_cases hsigned : x.isZero = true ∧ x.isNegative = true
    · obtain rfl := hzero.2 hsigned.1
      rw [if_pos hsigned, if_pos hsigned.2]
      rfl
    · rw [if_neg hsigned]
      refine (toString_toInt64 hn hsmall fun hnone => ?_).symm
      exact Bool.eq_false_of_not_eq_true fun hnegative => hsigned ⟨hzero.1 hnone, hnegative⟩
  · rfl

/-! ### Reading back -/

/-- The text of a finite number without its sign is one numeral, for the number. -/
theorem spells_shortest (h : x.isFinite = true) :
    Spells (x.abs.shortest .up).positional.toList
      [(.number x.abs, (x.abs.shortest .up).positional)] := by
  have hlexeme := Decimal.lexeme_positional (x.abs.shortest .up)
  rw [read_shortest (x.isFinite_abs.trans h) x.isNegative_abs] at hlexeme
  have hfits : Segment.Fits _ _ [] := hlexeme.fits nofun
  have hspells := Spells.token hfits .nil
  rwa [List.append_nil, String.ofList_toList] at hspells

end Number

/-- A minus before anything is a token by itself. -/
theorem Spells.minus {text : List Char} {lexemes : List (Token.Kind × String)}
    (h : Spells text lexemes) : Spells ('-' :: text) ((.symbol .minus, "-") :: lexemes) := by
  have hfits := Segment.first_fits '-' text
  have hcut : Segment.first '-' text = ⟨.token (.symbol .minus), ['-'], text⟩ := by
    show Segment.symbol .minus '-' text = _
    unfold Segment.symbol
    split
    · next hequal => cases hequal
    · rfl
  rw [hcut] at hfits
  exact .token hfits h

namespace Value

/-- Numbers that are displayed read back. The text of a finite number without a sign is scanned as one
number token, which is all of the text and stands for the very same number. With a sign, be it that of a
zero, there is a minus before the token, which stands for the absolute value. And it makes no difference
whether a whole number is written as a machine integer or like any other number. -/
theorem number_display_reads_back {x : Number} (h : x.isFinite = true) :
    (x.isNegative = false →
      (Scan.ofText (number x).display).faults = [] ∧
      (Scan.ofText (number x).display).tokens.map Token.lexeme =
        [(.number x, (number x).display), (.endOfSource, "")]) ∧
    (x.isNegative = true → ∃ text,
      (number x).display = "-" ++ text ∧
      (Scan.ofText (number x).display).faults = [] ∧
      (Scan.ofText (number x).display).tokens.map Token.lexeme =
        [(.symbol .minus, "-"), (.number x.abs, text), (.endOfSource, "")]) ∧
    (number x).display = x.displayByCases := by
  have hspells := Number.spells_shortest h
  have hdisplay : (number x).display = _ := Number.display_of_isFinite h
  refine ⟨fun hsign => ?_, fun hsign => ⟨(x.abs.shortest .up).positional, ?_, ?_⟩,
    x.display_eq_displayByCases⟩
  · rw [hsign, if_neg Bool.false_ne_true, String.empty_append] at hdisplay
    rw [Number.abs_of_isNegative_eq_false hsign] at hspells hdisplay
    rw [hdisplay]
    exact hspells.scan_lexemes
  · rw [hdisplay, hsign, if_pos rfl]
  · rw [hsign, if_pos rfl] at hdisplay
    have hminus := hspells.minus
    have htext : (number x).display.toList = '-' :: (x.abs.shortest .up).positional.toList := by
      rw [hdisplay, String.toList_append]
      rfl
    rw [← htext] at hminus
    exact hminus.scan_lexemes

/-- A tenth, and the zero with a sign. -/
theorem number_display_reads_back_tenth :
    Number.isFinite ⟨0x3FB999999999999A⟩ = true ∧
    (number ⟨0x3FB999999999999A⟩).display = "0.1" ∧
    (Scan.ofText "0.1").tokens.map Token.lexeme =
      [(.number ⟨0x3FB999999999999A⟩, "0.1"), (.endOfSource, "")] ∧
    Number.isFinite ⟨0x8000000000000000⟩ = true ∧
    (number ⟨0x8000000000000000⟩).display = "-0" ∧
    (Scan.ofText "-0").tokens.map Token.lexeme =
      [(.symbol .minus, "-"), (.number ⟨0⟩, "0"), (.endOfSource, "")] := by
  have htenth : (number ⟨0x3FB999999999999A⟩).display = "0.1" := by decide +kernel
  have hzero : (number ⟨0x8000000000000000⟩).display = "-0" := by decide +kernel
  have hfinite : Number.isFinite ⟨0x3FB999999999999A⟩ = true := by decide
  have hfinite' : Number.isFinite ⟨0x8000000000000000⟩ = true := by decide
  have hplain := (number_display_reads_back hfinite).1 (by decide)
  obtain ⟨text, htext, -, hlexemes⟩ := (number_display_reads_back hfinite').2.1 (by decide)
  rw [htenth] at hplain
  rw [hzero] at htext hlexemes
  obtain rfl : text = "0" := by
    have hlist := congrArg String.toList htext
    rw [String.toList_append] at hlist
    exact String.toList_inj.1 (List.cons.inj hlist).2.symm
  exact ⟨hfinite, htenth, hplain.2, hfinite', hzero, hlexemes⟩

end Value

end Lox
