import ScriptTree.Number
import ScriptTree.Proofs.Slices

/-!
# Numbers as numerals

A finite number that is not negative is written as a numeral, digits with maybe a point and more
digits, and the numeral is read as the same number. The shortest decimal of a magnitude rounds to it:
either the search has seen to that, or it is the exact value.
-/

namespace ScriptTree

open Piece

/-! ## Decimals in positional notation -/

namespace Decimal

theorem natOfDigits_repr (n : Nat) : natOfDigits n.repr.toList = n := by
  rw [Nat.toList_repr]
  exact Nat.ofDigitChars_ten_toDigits

theorem natOfDigits_append_zeros (word : List Char) (zeros : Nat) :
    natOfDigits (word ++ List.replicate zeros '0') = natOfDigits word * Nat.pow 10 zeros := by
  have h := Nat.ofDigitChars_append (b := 10) (l := word) (m := List.replicate zeros '0') 0
  rw [Nat.ofDigitChars_replicate_zero] at h
  exact h.trans (Nat.mul_comm _ _)

theorem natOfDigits_zeros_append (word : List Char) (zeros : Nat) :
    natOfDigits (List.replicate zeros '0' ++ word) = natOfDigits word := by
  have h := Nat.ofDigitChars_append (b := 10) (l := List.replicate zeros '0') (m := word) 0
  rw [Nat.ofDigitChars_replicate_zero, Nat.mul_zero] at h
  exact h

theorem isDigits_repr (n : Nat) : IsDigits n.repr.toList := by
  rw [Nat.toList_repr]
  exact ⟨Nat.toDigits_ne_nil, fun c => Nat.isDigit_of_mem_toDigits (by decide) (by decide)⟩

theorem isDigit_of_mem_replicate {zeros : Nat} {c : Char} (h : c ∈ List.replicate zeros '0') :
    c.isDigit = true := by
  rw [List.eq_of_mem_replicate h]
  rfl

theorem readFraction_append_of_stops {fraction after : List Char} (hf : IsFraction fraction)
    (hd : Stops Char.isDigit after) (hp : Stops (· == '.') after) :
    readFraction (fraction ++ after) = (fraction.tail, after) := by
  rcases hf with rfl | ⟨digits, hdigits, rfl⟩
  · rw [List.nil_append]
    unfold readFraction
    split
    · exact absurd (hp '.' rfl) (by decide)
    · rfl
  · rw [List.cons_append, readFraction, takeWhile_append_of_stops hdigits.2 hd,
      dropWhile_append_of_stops hdigits.2 hd, List.tail_cons]

theorem readFraction_of_isFraction {fraction : List Char} (h : IsFraction fraction) :
    readFraction fraction = (fraction.tail, []) := by
  have hnil {p : Char → Bool} : Stops p [] := nofun
  simpa using readFraction_append_of_stops h hnil hnil

theorem read?_of_isDigits {whole fraction : List Char} (hw : IsDigits whole)
    (hf : IsFraction fraction) :
    read? (whole ++ fraction) =
      some ⟨natOfDigits (whole ++ fraction.tail), -(fraction.tail.length : Int)⟩ := by
  have hstop : Stops Char.isDigit fraction := by
    rcases hf with rfl | ⟨digits, -, rfl⟩
    · exact nofun
    · rintro _ ⟨⟩
      rfl
  have hne : (whole.isEmpty && fraction.tail.isEmpty) = false := by
    rw [List.isEmpty_eq_false_iff.2 hw.1, Bool.false_and]
  simp only [read?, takeWhile_append_of_stops hw.2 hstop, dropWhile_append_of_stops hw.2 hstop,
    readFraction_of_isFraction hf, hne, readExponent?, Option.map_some, Int.zero_sub]
  rfl

theorem readDigits?_of_isDigits {word : List Char} (h : IsDigits word) :
    readDigits? word = some (natOfDigits word) := by
  unfold readDigits?
  rw [if_pos]
  simpa [IsDigits] using h

theorem isSome_readExponent? {text : List Char} (h : IsExponent text) :
    (readExponent? text).isSome = true := by
  rcases h with rfl | ⟨mark, sign, digits, hmark, hsign, hdigits, rfl⟩
  · rfl
  · have hread := readDigits?_of_isDigits hdigits
    unfold readExponent?
    dsimp only
    rw [if_pos (by simpa using hmark)]
    rcases hsign with rfl | rfl | rfl
    · -- digits have no sign in front of them
      cases digits with
      | nil => exact absurd rfl hdigits.1
      | cons c rest =>
        have hc := not_sign_of_isDigit c (hdigits.2 c List.mem_cons_self)
        rw [List.nil_append]
        split
        · rename_i heq
          cases heq
          exact absurd hc (by decide)
        · rename_i heq
          cases heq
          exact absurd hc (by decide)
        · simp [hread]
    · simp [hread]
    · simp [hread]

theorem isSome_read?_of_isNumeral {text : List Char} (h : IsNumeral text) :
    (read? text).isSome = true := by
  obtain ⟨whole, fraction, exponent, hw, hf, he, rfl⟩ := h
  have hnil {p : Char → Bool} : Stops p [] := nofun
  have hdigit : Stops Char.isDigit exponent := by
    simpa using stops_append_of_isExponent he hnil (p := Char.isDigit) (by decide)
  have hpoint : Stops (· == '.') exponent := by
    simpa using stops_append_of_isExponent he hnil (p := (· == '.')) (by decide)
  have hfirst : Stops Char.isDigit (fraction ++ exponent) := by
    rcases hf with rfl | ⟨digits, -, rfl⟩
    · exact hdigit
    · rintro c ⟨⟩
      decide
  unfold read?
  rw [List.append_assoc, takeWhile_append_of_stops hw.2 hfirst,
    dropWhile_append_of_stops hw.2 hfirst, readFraction_append_of_stops hf hdigit hpoint]
  simp [hw.1, isSome_readExponent? he]

/-- What is written of a decimal: its digits, with a fraction just if the exponent is negative. -/
theorem plain_eq (d : Decimal) :
    ∃ whole fraction, d.plain = whole ++ fraction ∧ IsDigits whole ∧ IsFraction fraction ∧
      (match d.exponent with
        | .ofNat zeros => fraction = [] ∧ natOfDigits whole = d.digits * Nat.pow 10 zeros
        | .negSucc n => fraction.tail.length = n + 1 ∧
          natOfDigits (whole ++ fraction.tail) = d.digits) := by
  obtain ⟨digits, exponent⟩ := d
  obtain ⟨hne, hdigit⟩ := isDigits_repr digits
  cases exponent with
  | ofNat zeros =>
    refine ⟨digits.repr.toList ++ List.replicate zeros '0', [], (List.append_nil _).symm, ⟨?_, ?_⟩,
      .inl rfl, rfl, ?_⟩
    · exact fun h => hne (List.append_eq_nil_iff.1 h).1
    · exact List.forall_mem_append.2 ⟨hdigit, fun c => isDigit_of_mem_replicate⟩
    · rw [natOfDigits_append_zeros, natOfDigits_repr]
  | negSucc n =>
    generalize hword : List.replicate (n + 1 + 1 - digits.repr.toList.length) '0' ++
      digits.repr.toList = word
    have hall : ∀ c ∈ word, c.isDigit = true := by
      rw [← hword]
      exact List.forall_mem_append.2 ⟨fun c => isDigit_of_mem_replicate, hdigit⟩
    have hlen : n + 1 + 1 ≤ word.length := by
      rw [← hword, List.length_append, List.length_replicate]
      omega
    have hval : natOfDigits word = digits := by
      rw [← hword, natOfDigits_zeros_append, natOfDigits_repr]
    have hfraction : (word.drop (word.length - (n + 1))).length = n + 1 := by
      rw [List.length_drop]
      omega
    refine ⟨word.take (word.length - (n + 1)), '.' :: word.drop (word.length - (n + 1)), ?_,
      ⟨?_, fun c hc => hall c (List.mem_of_mem_take hc)⟩,
      .inr ⟨_, ⟨?_, fun c hc => hall c (List.mem_of_mem_drop hc)⟩, rfl⟩, hfraction, ?_⟩
    · simp only [plain, hword]
    · refine List.ne_nil_of_length_pos ?_
      rw [List.length_take]
      omega
    · exact List.ne_nil_of_length_pos (by omega)
    · rw [List.tail_cons, List.take_append_drop, hval]

theorem isNumeral_plain (d : Decimal) : IsNumeral d.plain := by
  obtain ⟨whole, fraction, hplain, hw, hf, -⟩ := d.plain_eq
  exact ⟨whole, fraction, [], hw, hf, .inl rfl, by rw [hplain, List.append_nil]⟩

end Decimal

/-! ## Decimals that round to a magnitude -/

namespace Number

section
variable {negative : Bool} {rank : Fin magnitudeCount}

theorem ofDecimal_zeros {digits zeros : Nat}
    (h : ofDecimal negative ⟨digits, .ofNat zeros⟩ = .finite negative rank) :
    ofDecimal negative ⟨digits * Nat.pow 10 zeros, .ofNat 0⟩ = .finite negative rank := by
  simp only [ofDecimal] at h ⊢
  by_cases hd : digits = 0
  · rw [if_pos hd] at h
    rw [if_pos (by rw [hd, Nat.zero_mul])]
    exact h
  · have hpow : digits * Nat.pow 10 zeros ≠ 0 :=
      Nat.mul_ne_zero hd (Nat.pos_iff_ne_zero.1 (Nat.pow_pos (by decide)))
    rw [if_neg hd] at h
    by_cases hz : 400 < zeros
    · rw [if_pos hz] at h
      cases h
    · rw [if_neg hz] at h
      rw [if_neg hpow, if_neg (by decide), show Nat.pow 10 0 = 1 from rfl, Nat.mul_one]
      exact h

/-- What is written of a decimal is read as one that rounds alike. -/
theorem read?_plain {d : Decimal} (h : ofDecimal negative d = .finite negative rank) :
    ∃ e, Decimal.read? d.plain = some e ∧ ofDecimal negative e = .finite negative rank := by
  obtain ⟨whole, fraction, hplain, hw, hf, hd⟩ := d.plain_eq
  obtain ⟨digits, exponent⟩ := d
  refine ⟨_, hplain ▸ Decimal.read?_of_isDigits hw hf, ?_⟩
  cases exponent with
  | ofNat zeros =>
    obtain ⟨rfl, hval⟩ := hd
    rw [List.tail_nil, List.append_nil, hval]
    exact ofDecimal_zeros h
  | negSucc n =>
    obtain ⟨hlen, hval⟩ := hd
    rw [hval, hlen]
    exact h

end

/-- A magnitude is a number below `2 ^ 53` times a power of two; it is at least `2 ^ 52` if the power
is not the lowest. -/
theorem units_eq (rank : Nat) :
    ∃ doublings mantissa, units rank = mantissa * Nat.pow 2 doublings ∧
      rank = doublings * Nat.pow 2 52 + mantissa ∧ mantissa < Nat.pow 2 53 ∧
      (doublings = 0 ∨ Nat.pow 2 52 ≤ mantissa) := by
  refine ⟨rank / Nat.pow 2 52 - 1, _, rfl, ?_⟩
  have h52 : Nat.pow 2 52 = 4503599627370496 := rfl
  have h53 : Nat.pow 2 53 = 9007199254740992 := rfl
  rw [h52, h53]
  omega

theorem units_ne_zero {rank : Nat} (h : rank ≠ 0) : units rank ≠ 0 := by
  obtain ⟨doublings, mantissa, hunits, hsum, -, hd⟩ := units_eq rank
  rw [hunits]
  refine Nat.mul_ne_zero ?_ (Nat.pos_iff_ne_zero.1 (Nat.pow_pos (by decide)))
  rintro rfl
  rcases hd with rfl | hd
  · exact h (by rw [hsum, Nat.zero_mul])
  · exact absurd hd (by decide)

theorem log2_units {doublings mantissa : Nat} (hpos : mantissa ≠ 0) (hm : mantissa < Nat.pow 2 53)
    (hd : doublings = 0 ∨ Nat.pow 2 52 ≤ mantissa) :
    (mantissa * Nat.pow 2 doublings).log2 - 52 = doublings := by
  have hne : mantissa * Nat.pow 2 doublings ≠ 0 :=
    Nat.mul_ne_zero hpos (Nat.pos_iff_ne_zero.1 (Nat.pow_pos (by decide)))
  rcases hd with rfl | hd
  · have : mantissa.log2 < 53 := (Nat.log2_lt hpos).2 hm
    rw [show Nat.pow 2 0 = 1 from rfl, Nat.mul_one]
    omega
  · have : (mantissa * Nat.pow 2 doublings).log2 = 52 + doublings := by
      rw [Nat.log2_eq_iff hne]
      constructor
      · rw [Nat.pow_add]
        exact Nat.mul_le_mul_right _ hd
      · rw [show 52 + doublings + 1 = 53 + doublings by omega, Nat.pow_add]
        exact Nat.mul_lt_mul_of_pos_right hm (Nat.pow_pos (by decide))
    omega

theorem roundDiv_mul (num : Nat) {den : Nat} (hden : 0 < den) : roundDiv (num * den) den = num := by
  simp only [roundDiv, Nat.mul_mod_left, Nat.mul_div_cancel _ hden, Nat.mul_zero, if_pos hden]

/-- An exact magnitude is the nearest one. -/
theorem nearestRank_units {num den rank : Nat} (hden : 0 < den) (hrank : rank ≠ 0)
    (h : num * Nat.pow 2 1074 = units rank * den) : nearestRank num den = rank := by
  obtain ⟨doublings, mantissa, hunits, hsum, hm, hd⟩ := units_eq rank
  have hpos : mantissa ≠ 0 := by
    rintro rfl
    exact units_ne_zero hrank (hunits.trans (Nat.zero_mul _))
  have hscaled : mantissa * Nat.pow 2 doublings * den = mantissa * (den * Nat.pow 2 doublings) := by
    rw [Nat.mul_assoc, Nat.mul_comm den]
  simp only [nearestRank, h, Nat.mul_div_cancel _ hden, hunits, log2_units hpos hm hd]
  have hpow : 0 < Nat.pow 2 doublings := Nat.pow_pos (by decide)
  rw [hscaled, roundDiv_mul mantissa (Nat.mul_pos hden hpow), ← hsum]

theorem log2_mul_pow {n : Nat} (hn : n ≠ 0) (exponent : Nat) :
    n * Nat.pow 5 exponent ≠ 0 ∧ exponent ≤ (n * Nat.pow 5 exponent).log2 := by
  have hle : Nat.pow 2 exponent ≤ n * Nat.pow 5 exponent :=
    Nat.le_trans (Nat.pow_le_pow_left (by decide) exponent)
      (Nat.le_mul_of_pos_left _ (Nat.pos_iff_ne_zero.2 hn))
  have hne : n * Nat.pow 5 exponent ≠ 0 :=
    Nat.pos_iff_ne_zero.1 (Nat.lt_of_lt_of_le (Nat.pow_pos (by decide)) hle)
  exact ⟨hne, (Nat.le_log2 hne).2 hle⟩

theorem pow_five_mul_pow_two (n : Nat) : Nat.pow 5 n * Nat.pow 2 n = Nat.pow 10 n :=
  (Nat.mul_pow 5 2 n).symm

/-- The exact value of a magnitude rounds to it. -/
theorem ofDecimal_exact {rank : Fin magnitudeCount} (hrank : rank.val ≠ 0) {n m : Nat}
    (hm : n + 1 = m) (hn : m = 1074) :
    ofDecimal false ⟨units rank * Nat.pow 5 m, .negSucc n⟩ = .finite false rank := by
  subst hm
  have hnear : nearestRank (units rank * Nat.pow 5 (n + 1)) (Nat.pow 10 (n + 1)) = rank := by
    refine nearestRank_units (Nat.pow_pos (by decide)) hrank ?_
    rw [← hn, Nat.mul_assoc, pow_five_mul_pow_two]
  obtain ⟨hexact, hlog⟩ := log2_mul_pow (units_ne_zero hrank) (n + 1)
  simp only [ofDecimal]
  rw [if_neg hexact, if_neg (by omega), hnear, ofRank, dif_pos rank.isLt]

theorem ofDecimal_candidate {rank : Fin magnitudeCount} {exact power : Nat} {d : Decimal}
    (h : candidate? rank exact power = some d) : ofDecimal false d = .finite false rank := by
  simp only [candidate?] at h
  split at h
  · rename_i hfits
    cases h
    exact of_decide_eq_true (Bool.and_eq_true_iff.1 hfits).1
  · split at h
    · rename_i hfits
      cases h
      exact of_decide_eq_true hfits
    · cases h

theorem ofDecimal_shortest (rank : Fin magnitudeCount) :
    ofDecimal false (shortest rank) = .finite false rank := by
  by_cases hrank : rank.val = 0
  · rw [shortest, if_pos hrank]
    exact congrArg (Number.finite false) (Fin.ext hrank.symm)
  · simp only [shortest, if_neg hrank]
    generalize hfound : List.findSome? _ _ = found
    cases found with
    | none =>
      rw [Option.getD_none, show (-1074 : Int) = .negSucc 1073 from rfl]
      generalize hm : 1074 = m
      exact ofDecimal_exact hrank hm hm.symm
    | some d =>
      obtain ⟨count, -, hcandidate⟩ := List.exists_of_findSome?_eq_some hfound
      exact ofDecimal_candidate hcandidate

/-! ## Numbers as they are printed -/

theorem ofText?_of_isNumeral {text : List Char} (h : IsNumeral text) :
    ofText? (String.ofList text) = readUnsigned? false text := by
  obtain ⟨c, rest, rfl, hc⟩ := isDigit_of_isNumeral h
  rw [ofText?, String.toList_ofList]
  split
  · rename_i heq
    cases heq
    exact absurd hc (by decide)
  · rename_i heq
    cases heq
    exact absurd hc (by decide)
  · rfl

theorem isSome_ofText?_of_isNumeral {text : List Char} (h : IsNumeral text) :
    (ofText? (String.ofList text)).isSome = true := by
  obtain ⟨d, hd⟩ := Option.isSome_iff_exists.1 (Decimal.isSome_read?_of_isNumeral h)
  rw [ofText?_of_isNumeral h, readUnsigned?, hd]
  rfl

theorem text_finite (rank : Fin magnitudeCount) :
    IsNumeral (text (.finite false rank)).toList ∧
      ofText? (text (.finite false rank)) = some (.finite false rank) := by
  have htext : text (.finite false rank) = String.ofList (shortest rank).plain :=
    String.empty_append
  have hnumeral := Decimal.isNumeral_plain (shortest rank)
  obtain ⟨e, hread, he⟩ := read?_plain (ofDecimal_shortest rank)
  rw [htext, String.toList_ofList, ofText?_of_isNumeral hnumeral, readUnsigned?, hread, ← he]
  exact ⟨hnumeral, rfl⟩

def isUnsigned : Number → Bool
  | nan => true
  | infinity negative | finite negative _ => !negative

theorem isUnsigned_of_isNumeral {text : List Char} (h : IsNumeral text) {n : Number}
    (hn : ofText? (String.ofList text) = some n) : n.isUnsigned = true := by
  rw [ofText?_of_isNumeral h, readUnsigned?] at hn
  cases hread : Decimal.read? text with
  | none =>
    simp only [hread, ofWord?] at hn
    split at hn
    · cases hn
      rfl
    · split at hn <;> cases hn
      rfl
  | some d =>
    simp only [hread, Option.some.injEq, ofDecimal, ofRank] at hn
    repeat' split at hn
    all_goals (cases hn; rfl)

end Number

end ScriptTree
