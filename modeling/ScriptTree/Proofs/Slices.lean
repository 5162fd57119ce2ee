import ScriptTree.Piece
import ScriptTree.Source

/-!
# Slices of a script

A script that can be read falls into slices: runs of blanks, comments, and the lexemes of its tokens.
`Fits` says what a slice is and what may stand behind it, without regard to how it is read; a text is
read as exactly those slices that fit (`tokensOf_eq_ok_iff`).
-/

namespace ScriptTree

/-! ## Positions -/

namespace Position

def lineBehind (text : List Char) : Nat := 1 + text.count '\n'

/-- The number of the column behind a text: one, and one more for each character since the last line
end. -/
def columnBehind (text : List Char) : Nat := 1 + (text.reverse.takeWhile (· ≠ '\n')).length

def behind (text : List Char) : Position := ⟨.ofNat (lineBehind text), .ofNat (columnBehind text)⟩

theorem behind_concat (text : List Char) (c : Char) :
    behind (text ++ [c]) = (behind text).next c := by
  unfold behind next lineBehind columnBehind
  by_cases h : c = '\n'
  · simp [h, ← Nat.add_assoc, UInt32.ofNat_add]
  · simp [h, Nat.add_comm 1, UInt32.ofNat_add]

theorem after_behind (before : List Char) : ∀ text, (behind before).after text = behind (before ++ text)
  | [] => by simp
  | c :: text => by
    rw [after_cons, ← behind_concat, after_behind (before ++ [c]) text, List.append_assoc]
    rfl

theorem after_start (text : List Char) : start.after text = behind text := after_behind [] text

/-! ### Numbers that the counters hold -/

/-- No counter overflows on the text. -/
def Counts (text : List Char) : Prop :=
  ∀ before, before <+: text → lineBehind before < UInt32.size ∧ columnBehind before < UInt32.size

theorem lineBehind_le (text : List Char) : lineBehind text ≤ text.length + 1 := by
  have := List.count_le_length (a := '\n') (l := text)
  unfold lineBehind
  omega

theorem columnBehind_le (text : List Char) : columnBehind text ≤ text.length + 1 := by
  have := (List.takeWhile_sublist (· ≠ '\n') (l := text.reverse)).length_le
  rw [List.length_reverse] at this
  unfold columnBehind
  omega

theorem lineBehind_mono {before text : List Char} (h : before <+: text) :
    lineBehind before ≤ lineBehind text := Nat.add_le_add_left (h.sublist.count_le '\n') 1

theorem toNat_line {text : List Char} (h : lineBehind text < UInt32.size) :
    (behind text).line.toNat = lineBehind text := UInt32.toNat_ofNat_of_lt h

theorem toNat_column {text : List Char} (h : columnBehind text < UInt32.size) :
    (behind text).column.toNat = columnBehind text := UInt32.toNat_ofNat_of_lt h

theorem toNat_of_length {text : List Char} (h : text.length + 1 < UInt32.size) :
    (behind text).line.toNat = lineBehind text ∧ (behind text).column.toNat = columnBehind text :=
  ⟨toNat_line (Nat.lt_of_le_of_lt (lineBehind_le text) h),
    toNat_column (Nat.lt_of_le_of_lt (columnBehind_le text) h)⟩

theorem counts_of_length {text : List Char} (h : text.length + 1 < UInt32.size) : Counts text := by
  intro before hb
  have hlen : before.length + 1 < UInt32.size := Nat.lt_of_le_of_lt (Nat.succ_le_succ hb.length_le) h
  exact ⟨Nat.lt_of_le_of_lt (lineBehind_le before) hlen,
    Nat.lt_of_le_of_lt (columnBehind_le before) hlen⟩

theorem Counts.mono {text before : List Char} (h : Counts text) (hb : before <+: text) :
    Counts before := fun _ hp => h _ (hp.trans hb)

theorem Counts.toNat {text before : List Char} (h : Counts text) (hb : before <+: text) :
    (behind before).line.toNat = lineBehind before ∧
      (behind before).column.toNat = columnBehind before :=
  ⟨toNat_line (h before hb).1, toNat_column (h before hb).2⟩

/-- Behind line ends, the line counter may have started again. -/
theorem after_newlines (p : Position) {n : Nat} (h : 0 < n) :
    p.after (List.replicate n '\n') = ⟨p.line + .ofNat n, 1⟩ := by
  obtain ⟨n, rfl⟩ := Nat.exists_eq_add_one_of_ne_zero (Nat.ne_of_gt h)
  clear h
  induction n with
  | zero => rfl
  | succ n ih =>
    rw [List.replicate_succ', after_append, ih, UInt32.ofNat_add (n + 1), ← UInt32.add_assoc]
    rfl

end Position

/-! ## What a slice is -/

inductive StringLiteral.Denotes (quote : Char) : List Char → List Char → Prop
  | nil : Denotes quote [] []
  | plain {c text value} : c ≠ quote → c ≠ '\n' → c ≠ '\r' → c ≠ '\\' → Denotes quote text value →
      Denotes quote (c :: text) (c :: value)
  | escape {e c text value} : e ≠ 'u' → escaped? e = some c → Denotes quote text value →
      Denotes quote ('\\' :: e :: text) (c :: value)
  | unicode {h₁ h₂ h₃ h₄ c text value} : codePoint? h₁ h₂ h₃ h₄ = some c →
      Denotes quote text value → Denotes quote ('\\' :: 'u' :: h₁ :: h₂ :: h₃ :: h₄ :: text) (c :: value)

theorem StringLiteral.denotes_of_read {quote : Char} {text value after : List Char}
    (h : read quote text = .ok (value, after)) :
    ∃ contents, text = contents ++ quote :: after ∧ Denotes quote contents value := by
  fun_induction read quote text generalizing value after with
  | case2 rest =>
    cases h
    exact ⟨[], rfl, .nil⟩
  | case5 =>
    rename_i hc _ _ ih
    obtain ⟨v, rfl, hr⟩ := of_map_push h
    obtain ⟨contents, rfl, hd⟩ := ih hr
    exact ⟨_, rfl, .unicode hc hd⟩
  | case8 =>
    rename_i hu _ hc _ _ ih
    obtain ⟨v, rfl, hr⟩ := of_map_push h
    obtain ⟨contents, rfl, hd⟩ := ih hr
    exact ⟨_, rfl, .escape hu hc hd⟩
  | case10 c rest hq hn hb ih =>
    obtain ⟨v, rfl, hr⟩ := of_map_push h
    obtain ⟨contents, rfl, hd⟩ := ih hr
    have hn : ¬(c = '\n' ∨ c = '\r') := by simpa using hn
    exact ⟨_, rfl, .plain hq (fun hc => hn (.inl hc)) (fun hc => hn (.inr hc)) hb hd⟩
  | _ => simp at h

theorem StringLiteral.read_of_denotes {quote : Char} {contents value : List Char}
    (hq : quote ≠ '\\') (h : Denotes quote contents value) (after : List Char) :
    read quote (contents ++ quote :: after) = .ok (value, after) := by
  induction h with
  | nil => rw [List.nil_append, read.eq_def]; simp
  | plain hquote hn hr hb _ ih => rw [List.cons_append, read.eq_def]; simp [*, Except.map, push]
  | escape hu he _ ih =>
    rw [List.cons_append, List.cons_append, read.eq_def]
    simp [*, hq.symm, Except.map, push]
  | unicode hc _ ih =>
    simp only [List.cons_append]
    rw [read.eq_def]
    simp [*, hq.symm, Except.map, push]

namespace Piece

def IsDigits (text : List Char) : Prop := text ≠ [] ∧ ∀ c ∈ text, c.isDigit = true

def IsFraction (text : List Char) : Prop := text = [] ∨ ∃ digits, IsDigits digits ∧ text = '.' :: digits

def IsExponent (text : List Char) : Prop :=
  text = [] ∨ ∃ mark sign digits, (mark = 'e' ∨ mark = 'E') ∧
    (sign = [] ∨ sign = ['+'] ∨ sign = ['-']) ∧ IsDigits digits ∧ text = mark :: (sign ++ digits)

def IsNumeral (text : List Char) : Prop :=
  ∃ whole fraction exponent, IsDigits whole ∧ IsFraction fraction ∧ IsExponent exponent ∧
    text = whole ++ fraction ++ exponent

def startsOperator (c : Char) : Prop :=
  isBlank c = false ∧ isNameStart c = false ∧ c.isDigit = false ∧ c ≠ '"' ∧ c ≠ '\''

def Stops (p : Char → Bool) (text : List Char) : Prop := ∀ c ∈ text.head?, p c = false

/-- A slice of a script, if this text stands behind it. -/
inductive Fits (chars : OperatorChars) : Piece → List Char → Prop
  | blanks {text after} : text ≠ [] → (∀ c ∈ text, isBlank c = true) → Stops isBlank after →
      Fits chars (gap text) after
  | comment {text after} : (∀ c ∈ text, c ≠ '\n') → Stops (· != '\n') after →
      Fits chars (gap ('/' :: '/' :: text)) after
  | name {c text after} : isNameStart c = true → (∀ d ∈ text, isNameChar d = true) →
      Stops isNameChar after → Fits chars (word .name (c :: text)) after
  | number {text after} : IsNumeral text → Stops continuesNumeral after →
      Fits chars (word .number text) after
  | string {quote text value after} : quote = '"' ∨ quote = '\'' →
      StringLiteral.Denotes quote text value →
      Fits chars (lexeme .string (String.ofList value) (quote :: (text ++ [quote]))) after
  | operator {c text after} : startsOperator c → chars.first.contains c = true →
      (∀ d ∈ text, chars.further.contains d = true) → Stops chars.further.contains after →
      (c = '/' → (text ++ after).head? ≠ some '/') → Fits chars (word .operator (c :: text)) after
  | single {c after} : startsOperator c → chars.first.contains c = false → isControl c = false →
      (c = '/' → after.head? ≠ some '/') → Fits chars (word .operator [c]) after

inductive Tiled (chars : OperatorChars) : List Piece → Prop
  | nil : Tiled chars []
  | cons {piece pieces} : piece.text ≠ [] → Fits chars piece (textOf pieces) → Tiled chars pieces →
      Tiled chars (piece :: pieces)

/-- The tokens of slices, each one where the text before it ends. -/
def tokensBehind (before : List Char) : List Piece → List Token
  | [] => []
  | gap text :: rest => tokensBehind (before ++ text) rest
  | lexeme kind value text :: rest =>
    ⟨kind, value, Position.behind before⟩ :: tokensBehind (before ++ text) rest

theorem tokens_behind (before : List Char) :
    ∀ pieces, tokens (Position.behind before) pieces = tokensBehind before pieces
  | [] => rfl
  | gap text :: rest => by
    rw [tokens, tokensBehind, Position.after_behind, tokens_behind]
  | lexeme kind value text :: rest => by
    rw [tokens, tokensBehind, Position.after_behind, tokens_behind]

theorem prefix_of_mem_tokensBehind {pieces : List Piece} :
    ∀ before, ∀ t ∈ tokensBehind before pieces,
      ∃ text, text <+: textOf pieces ∧ t.position = .behind (before ++ text) := by
  induction pieces with
  | nil => exact fun _ _ ht => (List.not_mem_nil ht).elim
  | cons piece pieces ih =>
    intro before t ht
    have hbelow (h : t ∈ tokensBehind (before ++ piece.text) pieces) :
        ∃ text, text <+: textOf (piece :: pieces) ∧ t.position = .behind (before ++ text) := by
      obtain ⟨text, hp, heq⟩ := ih _ t h
      exact ⟨piece.text ++ text, (List.prefix_append_right_inj _).2 hp,
        heq.trans (congrArg Position.behind (List.append_assoc ..))⟩
    cases piece with
    | gap text => exact hbelow ht
    | lexeme kind value text =>
      rcases List.mem_cons.1 ht with rfl | ht
      · exact ⟨[], List.nil_prefix, congrArg Position.behind (List.append_nil before).symm⟩
      · exact hbelow ht

theorem prefix_of_mem_ended {pieces : List Piece} {before : List Char} {t : Token}
    (h : t ∈ tokensBehind before pieces ++ [Token.ending (.behind (before ++ textOf pieces))]) :
    ∃ text, text <+: textOf pieces ∧ t.position = .behind (before ++ text) := by
  rcases List.mem_append.1 h with h | h
  · exact prefix_of_mem_tokensBehind before t h
  · rw [List.mem_singleton.1 h]
    exact ⟨_, List.prefix_refl _, rfl⟩

/-! ## Runs of a class -/

section
variable {p : Char → Bool} {text after : List Char}

theorem stops_dropWhile (p : Char → Bool) (text : List Char) : Stops p (text.dropWhile p) := by
  intro c hc
  have h := List.head?_dropWhile_not p text
  rw [Option.mem_def.1 hc] at h
  exact h

theorem Stops.imp {q : Char → Bool} (h : Stops p after) (hqp : ∀ c, q c = true → p c = true) :
    Stops q after := by
  intro c hc
  cases hq : q c with
  | false => rfl
  | true => exact absurd (hqp c hq) (by rw [h c hc]; exact Bool.false_ne_true)

theorem takeWhile_of_stops (h : Stops p after) : after.takeWhile p = [] := by
  cases after with
  | nil => rfl
  | cons c rest => simp [h c rfl]

theorem dropWhile_of_stops (h : Stops p after) : after.dropWhile p = after := by
  cases after with
  | nil => rfl
  | cons c rest => simp [h c rfl]

theorem takeWhile_append_of_stops (hp : ∀ c ∈ text, p c = true) (h : Stops p after) :
    (text ++ after).takeWhile p = text := by
  rw [List.takeWhile_append_of_pos hp, takeWhile_of_stops h, List.append_nil]

theorem dropWhile_append_of_stops (hp : ∀ c ∈ text, p c = true) (h : Stops p after) :
    (text ++ after).dropWhile p = after := by
  rw [List.dropWhile_append_of_pos hp, dropWhile_of_stops h]

theorem of_mem_takeWhile {c : Char} (h : c ∈ text.takeWhile p) : p c = true :=
  List.all_eq_true.1 List.all_takeWhile c h

end

/-! ## Numerals -/

theorem isDigits_takeWhile {text : List Char} (h : ¬(text.takeWhile Char.isDigit).isEmpty) :
    IsDigits (text.takeWhile Char.isDigit) :=
  ⟨fun hn => h (List.isEmpty_iff.2 hn), fun _ => of_mem_takeWhile⟩

theorem isFraction_splitFraction (text : List Char) : IsFraction (splitFraction text).1 := by
  unfold splitFraction
  split
  · split
    · exact .inl rfl
    · exact .inr ⟨_, isDigits_takeWhile ‹_›, rfl⟩
  · exact .inl rfl

theorem splitSign_sign (text : List Char) :
    (splitSign text).1 = [] ∨ (splitSign text).1 = ['+'] ∨ (splitSign text).1 = ['-'] := by
  unfold splitSign
  split
  · split
    · rename_i h
      rcases (by simpa using h : _ ∨ _) with rfl | rfl
      · exact .inr (.inl rfl)
      · exact .inr (.inr rfl)
    · exact .inl rfl
  · exact .inl rfl

theorem isExponent_splitExponent (text : List Char) : IsExponent (splitExponent text).1 := by
  unfold splitExponent
  split
  · split
    · rename_i hmark
      dsimp only
      split
      · exact .inl rfl
      · exact .inr ⟨_, _, _, by simpa using hmark, splitSign_sign _, isDigits_takeWhile ‹_›, rfl⟩
    · exact .inl rfl
  · exact .inl rfl

theorem isNumeral_splitNumeral {c : Char} (h : c.isDigit = true) (rest : List Char) :
    IsNumeral (splitNumeral (c :: rest)).1 := by
  refine ⟨_, _, _, ⟨?_, fun _ => of_mem_takeWhile⟩, isFraction_splitFraction _,
    isExponent_splitExponent _, rfl⟩
  simp [h]

theorem splitFraction_append_of_stops {fraction after : List Char} (hf : IsFraction fraction)
    (hd : Stops Char.isDigit after) (hp : fraction = [] → Stops (· == '.') after) :
    splitFraction (fraction ++ after) = (fraction, after) := by
  rcases hf with rfl | ⟨digits, ⟨hne, hall⟩, rfl⟩
  · rw [List.nil_append]
    unfold splitFraction
    split
    · exact absurd (hp rfl '.' rfl) (by decide)
    · rfl
  · rw [List.cons_append, splitFraction, takeWhile_append_of_stops hall hd,
      dropWhile_append_of_stops hall hd, if_neg (by simpa using hne)]

theorem splitSign_append_of_stops {sign after : List Char}
    (hs : sign = [] ∨ sign = ['+'] ∨ sign = ['-'])
    (h : Stops (fun c => decide (c = '+' ∨ c = '-')) after) : splitSign (sign ++ after) = (sign, after) := by
  rcases hs with rfl | rfl | rfl
  · cases after with
    | nil => rfl
    | cons c rest =>
      have hc : ¬(c = '+' ∨ c = '-') := of_decide_eq_false (h c rfl)
      simpa [splitSign] using hc
  · rfl
  · rfl

theorem stops_append_of_isDigits {p : Char → Bool} {digits after : List Char} (h : IsDigits digits)
    (hp : ∀ c, c.isDigit = true → p c = false) : Stops p (digits ++ after) := by
  obtain ⟨hne, hall⟩ := h
  cases digits with
  | nil => exact absurd rfl hne
  | cons d digits =>
    intro c hc
    cases hc
    exact hp d (hall d (List.mem_cons_self ..))

theorem not_sign_of_isDigit (c : Char) (h : c.isDigit = true) :
    decide (c = '+' ∨ c = '-') = false := by
  refine decide_eq_false ?_
  rintro (rfl | rfl) <;> exact absurd h (by decide)

theorem isDigit_isNameChar (c : Char) (h : c.isDigit = true) : isNameChar c = true := by
  simp [isNameChar, Char.isAlphanum, h]

theorem splitExponent_append_of_stops {exponent after : List Char} (he : IsExponent exponent)
    (h : Stops continuesNumeral after) : splitExponent (exponent ++ after) = (exponent, after) := by
  rcases he with rfl | ⟨mark, sign, digits, hmark, hsign, hdigits, rfl⟩
  · cases after with
    | nil => rfl
    | cons c rest =>
      have hc : ¬(c = 'e' ∨ c = 'E') := by
        rintro (rfl | rfl) <;> exact absurd (h _ rfl) (by decide)
      simp [splitExponent, hc]
  · have hstop : Stops Char.isDigit after :=
      h.imp fun c hc => by simp [continuesNumeral, isDigit_isNameChar c hc]
    have hrest : splitSign (sign ++ (digits ++ after)) = (sign, digits ++ after) :=
      splitSign_append_of_stops hsign (stops_append_of_isDigits hdigits not_sign_of_isDigit)
    rw [List.cons_append, splitExponent, if_pos (by simpa using hmark), List.append_assoc, hrest]
    dsimp only
    rw [takeWhile_append_of_stops hdigits.2 hstop, dropWhile_append_of_stops hdigits.2 hstop,
      if_neg (by simpa using hdigits.1)]

theorem stops_append_of_isExponent {p : Char → Bool} {exponent after : List Char}
    (he : IsExponent exponent) (h : Stops p after) (hp : p 'e' = false ∧ p 'E' = false) :
    Stops p (exponent ++ after) := by
  rcases he with rfl | ⟨mark, sign, digits, hmark, -, -, rfl⟩
  · exact h
  · intro c hc
    cases hc
    rcases hmark with rfl | rfl
    · exact hp.1
    · exact hp.2

theorem splitNumeral_append_of_stops {text after : List Char} (ht : IsNumeral text)
    (h : Stops continuesNumeral after) : splitNumeral (text ++ after) = (text, after) := by
  obtain ⟨whole, fraction, exponent, hw, hf, he, rfl⟩ := ht
  have hdigit : Stops Char.isDigit (exponent ++ after) := by
    refine stops_append_of_isExponent he (h.imp fun c hc => ?_) (by decide)
    simp [continuesNumeral, isDigit_isNameChar c hc]
  have hpoint : Stops (· == '.') (exponent ++ after) :=
    stops_append_of_isExponent he (h.imp fun c hc => by simp [continuesNumeral, hc]) (by decide)
  have hfirst : Stops Char.isDigit (fraction ++ (exponent ++ after)) := by
    rcases hf with rfl | ⟨digits, -, rfl⟩
    · exact hdigit
    · intro c hc
      cases hc
      decide
  rw [splitNumeral, List.append_assoc, List.append_assoc, takeWhile_append_of_stops hw.2 hfirst,
    dropWhile_append_of_stops hw.2 hfirst,
    splitFraction_append_of_stops hf hdigit fun _ => hpoint]
  dsimp only
  rw [splitExponent_append_of_stops he h, List.append_assoc]

/-! ## What is read fits -/

section
variable {chars : OperatorChars}

theorem fits_of_readNumeral {c : Char} {rest after : List Char} {piece : Piece}
    (hd : c.isDigit = true) (h : readNumeral (c :: rest) = .ok (piece, after)) :
    Fits chars piece after := by
  simp only [readNumeral] at h
  split at h
  · rename_i hstop
    cases h
    refine .number (isNumeral_splitNumeral hd rest) ?_
    intro d hd
    cases hrest : (splitNumeral (c :: rest)).2 with
    | nil => rw [hrest] at hd; cases hd
    | cons e tail =>
      rw [hrest] at hd hstop
      cases hd
      cases hc : continuesNumeral d with
      | false => rfl
      | true => simp [hc] at hstop
  · cases h

theorem fits_of_readString {quote : Char} {rest after : List Char} {piece : Piece}
    (hq : quote = '"' ∨ quote = '\'') (h : readString quote rest = .ok (piece, after)) :
    Fits chars piece after := by
  unfold readString at h
  split at h
  · cases h
  · rename_i hr
    cases h
    obtain ⟨contents, rfl, hd⟩ := StringLiteral.denotes_of_read hr
    have hlen : (contents ++ quote :: after).length - after.length = (contents ++ [quote]).length := by
      simp only [List.length_append, List.length_cons, List.length_nil]
      omega
    rw [hlen, List.append_cons contents quote after, List.take_left]
    exact .string hq hd

theorem fits_of_read {c : Char} {rest after : List Char} {piece : Piece}
    (h : read chars c rest = .ok (piece, after)) : Fits chars piece after := by
  unfold read at h
  split at h
  · rename_i hb
    cases h
    refine .blanks (List.cons_ne_nil _ _) ?_ (stops_dropWhile _ _)
    intro d hd
    rcases List.mem_cons.1 hd with rfl | hd
    · exact hb
    · exact of_mem_takeWhile hd
  split at h
  · rename_i hslash
    obtain ⟨rfl, hhead⟩ := by simpa using hslash
    obtain ⟨rest, rfl⟩ := List.head?_eq_some_iff.1 hhead
    cases h
    rw [List.takeWhile_cons_of_pos (by decide), List.dropWhile_cons_of_pos (by decide)]
    exact .comment (fun d hd => by simpa using of_mem_takeWhile hd) (stops_dropWhile _ _)
  rename_i hb hslash
  split at h
  · cases h
    exact .name ‹_› (fun d hd => of_mem_takeWhile hd) (stops_dropWhile _ _)
  split at h
  · exact fits_of_readNumeral ‹_› h
  split at h
  · rename_i hq
    exact fits_of_readString (by simpa using hq) h
  rename_i hname hdigit hquote
  have hquote : ¬(c = '"' ∨ c = '\'') := by simpa using hquote
  have hstart : startsOperator c :=
    ⟨Bool.eq_false_iff.2 hb, Bool.eq_false_iff.2 hname, Bool.eq_false_iff.2 hdigit,
      fun hc => hquote (.inl hc), fun hc => hquote (.inr hc)⟩
  have hcomment : c = '/' → rest.head? ≠ some '/' := by
    rintro rfl hhead
    exact hslash (by simp [hhead])
  split at h
  · rename_i hfirst
    cases h
    refine .operator hstart hfirst (fun d hd => of_mem_takeWhile hd) (stops_dropWhile _ _) ?_
    rw [List.takeWhile_append_dropWhile]
    exact hcomment
  split at h
  · cases h
  · rename_i hfirst hcontrol
    cases h
    exact .single hstart (Bool.eq_false_iff.2 hfirst) (Bool.eq_false_iff.2 hcontrol) hcomment

/-! ## What fits is read -/

theorem toNat_of_isNameChar {c : Char} (h : isNameChar c = true) :
    0x30 ≤ c.toNat ∧ c.toNat ≤ 0x7a := by
  have hn : c.toNat = c.val.toNat := rfl
  unfold isNameChar Char.isAlphanum Char.isAlpha Char.isUpper Char.isLower Char.isDigit at h
  simp only [Bool.or_eq_true, decide_eq_true_eq, Bool.and_eq_true, ge_iff_le,
    UInt32.le_iff_toNat_le, beq_iff_eq, Char.reduceVal, UInt32.reduceToNat] at h
  rcases h with h | rfl
  · omega
  · decide

theorem not_isBlank_of_isNameChar {c : Char} (h : isNameChar c = true) : isBlank c = false := by
  obtain ⟨hlow, hhigh⟩ := toNat_of_isNameChar h
  simp only [isBlank, Bool.or_eq_false_iff, Bool.and_eq_false_iff, decide_eq_false_iff_not,
    beq_eq_false_iff_ne]
  omega

theorem not_isNameStart_of_isDigit {c : Char} (h : c.isDigit = true) : isNameStart c = false := by
  have hne : c ≠ '_' := by rintro rfl; exact absurd h (by decide)
  simp only [Char.isDigit, Bool.and_eq_true, decide_eq_true_eq, ge_iff_le,
    UInt32.le_iff_toNat_le, Char.reduceVal, UInt32.reduceToNat] at h
  unfold isNameStart Char.isAlpha Char.isUpper Char.isLower
  simp only [Bool.or_eq_false_iff, Bool.and_eq_false_iff, decide_eq_false_iff_not, ge_iff_le,
    UInt32.le_iff_toNat_le, beq_eq_false_iff_ne, Char.reduceVal, UInt32.reduceToNat]
  refine ⟨?_, hne⟩
  omega

theorem ne_of_isNameChar {c d : Char} (h : isNameChar c = true) (hd : isNameChar d = false) : c ≠ d := by
  rintro rfl
  exact Bool.false_ne_true (hd.symm.trans h)

theorem isNameChar_of_isNameStart {c : Char} (h : isNameStart c = true) : isNameChar c = true := by
  simp only [isNameStart, isNameChar, Char.isAlphanum, Bool.or_eq_true] at h ⊢
  rcases h with h | h
  · exact .inl (.inl h)
  · exact .inr h

theorem isDigit_of_isNumeral {text : List Char} (h : IsNumeral text) :
    ∃ c rest, text = c :: rest ∧ c.isDigit = true := by
  obtain ⟨whole, fraction, exponent, ⟨hne, hall⟩, -, -, rfl⟩ := h
  cases whole with
  | nil => exact absurd rfl hne
  | cons c whole => exact ⟨c, _, rfl, hall c (List.mem_cons_self ..)⟩

theorem readNumeral_of_isNumeral {text after : List Char} (ht : IsNumeral text)
    (h : Stops continuesNumeral after) : readNumeral (text ++ after) = .ok (word .number text, after) := by
  unfold readNumeral
  rw [splitNumeral_append_of_stops ht h]
  dsimp only
  rw [takeWhile_of_stops h]

theorem readString_of_denotes {quote : Char} {contents value : List Char} (hq : quote ≠ '\\')
    (h : StringLiteral.Denotes quote contents value) (after : List Char) :
    readString quote (contents ++ quote :: after) =
      .ok (lexeme .string (String.ofList value) (quote :: (contents ++ [quote])), after) := by
  have hlen : (contents ++ quote :: after).length - after.length = (contents ++ [quote]).length := by
    simp only [List.length_append, List.length_cons, List.length_nil]
    omega
  unfold readString
  rw [StringLiteral.read_of_denotes hq h after]
  dsimp only
  rw [hlen, List.append_cons contents quote after, List.take_left]

theorem read_of_isDigit {c : Char} (h : c.isDigit = true) (rest : List Char) :
    read chars c rest = readNumeral (c :: rest) := by
  have hn := isDigit_isNameChar c h
  have hslash : c ≠ '/' := ne_of_isNameChar hn (by decide)
  rw [read, if_neg (by simp [not_isBlank_of_isNameChar hn]), if_neg (by simp [hslash]),
    if_neg (by simp [not_isNameStart_of_isDigit h]), if_pos h]

theorem read_of_fits {piece : Piece} {after : List Char} (h : Fits chars piece after) :
    ∃ c rest, piece.text ++ after = c :: rest ∧ read chars c rest = .ok (piece, after) := by
  cases h with
  | @blanks text _ hne hall hstop =>
    obtain ⟨c, text, rfl⟩ := List.exists_cons_of_ne_nil hne
    have htext : ∀ d ∈ text, isBlank d = true := fun d hd => hall d (List.mem_cons_of_mem c hd)
    refine ⟨c, text ++ after, rfl, ?_⟩
    rw [read, if_pos (hall c (List.mem_cons_self ..)), takeWhile_append_of_stops htext hstop,
      dropWhile_append_of_stops htext hstop]
  | @comment text _ hall hstop =>
    have htext : ∀ d ∈ '/' :: text, (d != '\n') = true := by
      intro d hd
      rcases List.mem_cons.1 hd with rfl | hd
      · decide
      · exact bne_iff_ne.2 (hall d hd)
    refine ⟨'/', '/' :: text ++ after, rfl, ?_⟩
    rw [read, if_neg (by decide), if_pos (by simp),
      takeWhile_append_of_stops htext hstop, dropWhile_append_of_stops htext hstop]
  | @name c text _ hc hall hstop =>
    have hn := isNameChar_of_isNameStart hc
    refine ⟨c, text ++ after, rfl, ?_⟩
    have hslash : c ≠ '/' := ne_of_isNameChar hn (by decide)
    rw [read, if_neg (by simp [not_isBlank_of_isNameChar hn]), if_neg (by simp [hslash]), if_pos hc,
      takeWhile_append_of_stops hall hstop, dropWhile_append_of_stops hall hstop]
  | number hnumeral hstop =>
    obtain ⟨c, rest, rfl, hc⟩ := isDigit_of_isNumeral hnumeral
    refine ⟨c, rest ++ after, rfl, ?_⟩
    rw [read_of_isDigit hc]
    exact readNumeral_of_isNumeral hnumeral hstop
  | @string quote text value _ hq hd =>
    refine ⟨quote, text ++ quote :: after, by simp, ?_⟩
    rcases hq with rfl | rfl
    · exact readString_of_denotes (by decide) hd after
    · exact readString_of_denotes (by decide) hd after
  | @operator c text _ hc hfirst hall hstop hslash =>
    obtain ⟨hb, hn, hd, hq₁, hq₂⟩ := hc
    refine ⟨c, text ++ after, rfl, ?_⟩
    rw [read, if_neg (by simp [hb]), if_neg (by simpa using hslash), if_neg (by simp [hn]),
      if_neg (by simp [hd]), if_neg (by simp [hq₁, hq₂]), if_pos hfirst,
      takeWhile_append_of_stops hall hstop, dropWhile_append_of_stops hall hstop]
  | @single c _ hc hfirst hcontrol hslash =>
    obtain ⟨hb, hn, hd, hq₁, hq₂⟩ := hc
    refine ⟨c, after, rfl, ?_⟩
    rw [read, if_neg (by simp [hb]), if_neg (by simpa using hslash), if_neg (by simp [hn]),
      if_neg (by simp [hd]), if_neg (by simp [hq₁, hq₂]), if_neg (Bool.eq_false_iff.1 hfirst),
      if_neg (by simp [hcontrol])]

/-! ## Whole scripts -/

theorem readAll_cons {c : Char} {rest after : List Char} {piece : Piece}
    (h : read chars c rest = .ok (piece, after)) :
    readAll chars (c :: rest) = (piece :: (readAll chars after).1, (readAll chars after).2) := by
  rw [readAll.eq_def]
  dsimp only
  split
  · rename_i hr
    rw [h] at hr
    cases hr
  · rename_i hr
    rw [h] at hr
    cases hr
    rfl

theorem readAll_of_error {c : Char} {rest : List Char} {cause : Cause}
    (h : read chars c rest = .error cause) : readAll chars (c :: rest) = ([], some cause) := by
  rw [readAll.eq_def]
  dsimp only
  split
  · rename_i hr
    rw [h] at hr
    cases hr
    rfl
  · rename_i hr
    rw [h] at hr
    cases hr

theorem tiled_of_readAll {text : List Char} {pieces : List Piece}
    (h : readAll chars text = (pieces, none)) : Tiled chars pieces ∧ textOf pieces = text := by
  fun_induction readAll chars text generalizing pieces with
  | case1 =>
    cases h
    exact ⟨.nil, rfl⟩
  | case2 => cases h
  | case3 c rest piece after hr _ pieces' stop hrest ih =>
    obtain ⟨rfl, rfl⟩ := Prod.mk.inj h
    obtain ⟨htiled, htext⟩ := ih hrest
    obtain ⟨hne, happ⟩ := text_append_of_read hr
    refine ⟨.cons hne (htext ▸ fits_of_read hr) htiled, ?_⟩
    rw [textOf, List.flatMap_cons, ← happ, ← htext, textOf]

theorem readAll_of_tiled {pieces : List Piece} (h : Tiled chars pieces) :
    readAll chars (textOf pieces) = (pieces, none) := by
  induction h with
  | nil => rw [textOf, List.flatMap_nil, readAll.eq_def]
  | @cons piece pieces hne hfits _ ih =>
    obtain ⟨c, rest, happ, hr⟩ := read_of_fits hfits
    rw [textOf, List.flatMap_cons, ← textOf, happ, readAll_cons hr, ih]

/-- A lexeme is never read as the end of a script. -/
theorem kind_ne_ending_of_tiled {pieces : List Piece} (h : Tiled chars pieces) :
    ∀ before, ∀ t ∈ tokensBehind before pieces, t.kind ≠ .ending := by
  induction h with
  | nil =>
    intro before t ht
    cases ht
  | @cons piece pieces _ hfits _ ih =>
    intro before t ht
    cases hfits with
    | blanks | comment => exact ih _ t ht
    | name | number | string | operator | single =>
      rcases List.mem_cons.1 ht with rfl | ht
      · exact TokenKind.noConfusion
      · exact ih _ t ht

end

end Piece

/-! ## Tokens of scripts -/

theorem eq_ok_of_toOption {ε α : Type} {x : Except ε α} {a : α} (h : x.toOption = some a) :
    x = .ok a := by
  cases x with
  | error e => cases h
  | ok b => exact congrArg Except.ok (Option.some.inj h)

theorem tiled_of_tokensOf {chars : OperatorChars} {script : String} {tokens : List Token}
    (h : tokensOf chars script = .ok tokens) :
    ∃ pieces, Piece.Tiled chars pieces ∧ Piece.textOf pieces = script.toList ∧
      tokens = Piece.tokensBehind [] pieces ++ [Token.ending (Position.behind script.toList)] := by
  rw [tokensOf] at h
  split at h
  rename_i pieces stop hread
  cases stop with
  | some cause => cases h
  | none =>
    cases h
    obtain ⟨htiled, htext⟩ := Piece.tiled_of_readAll hread
    refine ⟨pieces, htiled, htext, ?_⟩
    rw [htext, Position.after_start, ← Piece.tokens_behind]
    rfl

theorem prefix_of_tokensOf {chars : OperatorChars} {script : String} {tokens : List Token}
    (h : tokensOf chars script = .ok tokens) :
    ∀ t ∈ tokens, ∃ before, before <+: script.toList ∧ t.position = .behind before := by
  obtain ⟨pieces, -, htext, rfl⟩ := tiled_of_tokensOf h
  intro t ht
  rw [← htext] at ht ⊢
  exact Piece.prefix_of_mem_ended ht

/-- A cursor that moves over the text in front of a token stands where the token does. -/
theorem Cursor.advance?_of_tokensOf {chars : OperatorChars} {script : String} {tokens : List Token}
    (h : tokensOf chars script = .ok tokens) :
    ∀ t ∈ tokens, ∃ before cursor, before <+: script.toList ∧
      (Cursor.ofText script).advance? (byteSize before) = some cursor ∧
      cursor.position = t.position := by
  intro t ht
  obtain ⟨before, hbefore, hposition⟩ := prefix_of_tokensOf h t ht
  obtain ⟨rest, hrest⟩ := hbefore
  refine ⟨before, ⟨rest, .behind before⟩, ⟨rest, hrest⟩, ?_, hposition.symm⟩
  exact advance?_eq_some_iff.2 ⟨before, hrest.symm, (Position.after_start before).symm, .inl rfl⟩

theorem tokensOf_of_tiled {chars : OperatorChars} {script : String} {pieces : List Piece}
    (h : Piece.Tiled chars pieces) (htext : Piece.textOf pieces = script.toList) :
    tokensOf chars script =
      .ok (Piece.tokensBehind [] pieces ++ [Token.ending (Position.behind script.toList)]) := by
  rw [tokensOf, ← htext, Piece.readAll_of_tiled h]
  dsimp only
  rw [Position.after_start, ← Piece.tokens_behind]
  rfl

/-- **A script is read exactly when it falls into slices that fit, and as the tokens of these.** The
places behind fewer than `UInt32.size - 1` characters are given by their true lines and columns; all
slices of a script of fewer than `UInt32.size` characters stand there. -/
theorem tokensOf_eq_ok_iff (chars : OperatorChars) (script : String) (tokens : List Token) :
    (tokensOf chars script = .ok tokens ↔
      ∃ pieces, Piece.Tiled chars pieces ∧ Piece.textOf pieces = script.toList ∧
        tokens = Piece.tokensBehind [] pieces ++ [Token.ending (Position.behind script.toList)] ∧
        ∀ t ∈ Piece.tokensBehind [] pieces, t.kind ≠ .ending) ∧
    ∀ before : List Char, before.length + 1 < UInt32.size →
      (Position.behind before).line.toNat = Position.lineBehind before ∧
      (Position.behind before).column.toNat = Position.columnBehind before := by
  refine ⟨⟨fun h => ?_, ?_⟩, fun before => Position.toNat_of_length⟩
  · obtain ⟨pieces, htiled, htext, htokens⟩ := tiled_of_tokensOf h
    exact ⟨pieces, htiled, htext, htokens, Piece.kind_ne_ending_of_tiled htiled []⟩
  · rintro ⟨pieces, htiled, htext, rfl, -⟩
    exact tokensOf_of_tiled htiled htext

end ScriptTree
