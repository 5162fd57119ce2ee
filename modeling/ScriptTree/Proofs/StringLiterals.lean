import ScriptTree.Proofs.Scanning
import ScriptTree.Proofs.Spelling
import ScriptTree.Tree.Script

/-!
# The grammar of string literals

Behind a quote stands a literal, or the text cannot be read: `string_scanned_iff` says which texts are
literals, and what they denote. Every text is denoted by one, the literal that is written for it
(`write_scanned`).
-/

namespace ScriptTree

namespace StringLiteral

/-! ## The grammar -/

def shortEscapes : List (Char × Char) :=
  [('n', '\n'), ('t', '\t'), ('r', '\r'), ('b', '\x08'), ('f', '\x0c'), ('0', '\x00'),
    ('\\', '\\'), ('/', '/'), ('"', '"'), ('\'', '\'')]

def IsHexDigit (c : Char) (n : Nat) : Prop := n < 16 ∧ (c = n.digitChar ∨ c = n.digitChar.toUpper)

/-- What stands between the quotes of a literal, and the text that it denotes. The number counts the
escapes that have a plus sign in place of their first digit. -/
inductive Contents (quote : Char) : Nat → List Char → List Char → Prop
  | nil : Contents quote 0 [] []
  | plain {c signs text value} : c ≠ quote → c ≠ '\\' → c ≠ '\n' → c ≠ '\r' →
      Contents quote signs text value → Contents quote signs (c :: text) (c :: value)
  | short {e c signs text value} : (e, c) ∈ shortEscapes → Contents quote signs text value →
      Contents quote signs ('\\' :: e :: text) (c :: value)
  | unicode {h₁ h₂ h₃ h₄ n₁ n₂ n₃ n₄ c signs text value} : IsHexDigit h₁ n₁ → IsHexDigit h₂ n₂ →
      IsHexDigit h₃ n₃ → IsHexDigit h₄ n₄ → c.toNat = ((n₁ * 16 + n₂) * 16 + n₃) * 16 + n₄ →
      Contents quote signs text value →
      Contents quote signs ('\\' :: 'u' :: h₁ :: h₂ :: h₃ :: h₄ :: text) (c :: value)
  | signed {h₂ h₃ h₄ n₂ n₃ n₄ c signs text value} : IsHexDigit h₂ n₂ → IsHexDigit h₃ n₃ →
      IsHexDigit h₄ n₄ → c.toNat = (n₂ * 16 + n₃) * 16 + n₄ → Contents quote signs text value →
      Contents quote (signs + 1) ('\\' :: 'u' :: '+' :: h₂ :: h₃ :: h₄ :: text) (c :: value)

/-! ## Escapes -/

theorem escaped?_eq_some_iff {e c : Char} : escaped? e = some c ↔ (e, c) ∈ shortEscapes := by
  constructor
  · fun_cases escaped? e with
    | case7 _ _ _ _ _ _ he =>
      rw [Bool.or_eq_true, Bool.or_eq_true, Bool.or_eq_true] at he
      rcases he with ((he | he) | he) | he <;> (cases of_decide_eq_true he; rintro ⟨⟩; decide)
    | case8 => exact fun h => by cases h
    | _ =>
      rename_i he
      subst he
      rintro ⟨⟩
      decide
  · intro h
    simp only [shortEscapes, List.mem_cons, Prod.mk.injEq, List.not_mem_nil, or_false] at h
    rcases h with h | h | h | h | h | h | h | h | h | h <;> obtain ⟨rfl, rfl⟩ := h <;> rfl

theorem hexValue?_digitChar : ∀ n < 16,
    hexValue? n.digitChar = some n ∧ hexValue? n.digitChar.toUpper = some n := by
  decide

theorem toNat_lt_of_hexValue? {c : Char} {n : Nat} (h : hexValue? c = some n) : c.toNat < 128 := by
  refine Nat.lt_of_not_le fun hc => ?_
  have hlarge {d : Char} (hd : d.toNat < 128) : ¬c ≤ d := fun hle =>
    Nat.not_lt.2 hc (Nat.lt_of_le_of_lt (UInt32.le_iff_toNat_le.1 hle) hd)
  unfold hexValue? at h
  simp [hlarge (d := '9') (by decide), hlarge (d := 'f') (by decide), hlarge (d := 'F') (by decide)] at h

theorem hexValue?_eq_some_iff {c : Char} {n : Nat} : hexValue? c = some n ↔ IsHexDigit c n := by
  constructor
  · intro h
    have hall : ∀ k < 128, ∀ n ∈ hexValue? (Char.ofNat k), n < 16 ∧
        (Char.ofNat k = n.digitChar ∨ Char.ofNat k = n.digitChar.toUpper) := by decide
    have hc := hall c.toNat (toNat_lt_of_hexValue? h) n
    rw [Char.ofNat_toNat] at hc
    exact hc h
  · rintro ⟨hn, rfl | rfl⟩
    · exact (hexValue?_digitChar n hn).1
    · exact (hexValue?_digitChar n hn).2

theorem IsHexDigit.ne_plus {c : Char} {n : Nat} (h : IsHexDigit c n) : c ≠ '+' := by
  rintro rfl
  cases hexValue?_eq_some_iff.2 h

theorem codePoint?_eq_bind (h₁ h₂ h₃ h₄ : Char) : codePoint? h₁ h₂ h₃ h₄ =
    (if h₁ = '+' then some 0 else hexValue? h₁).bind fun n₁ => (hexValue? h₂).bind fun n₂ =>
      (hexValue? h₃).bind fun n₃ => (hexValue? h₄).bind fun n₄ =>
        let n := ((n₁ * 16 + n₂) * 16 + n₃) * 16 + n₄
        if n.isValidChar then some (Char.ofNat n) else none := by
  unfold codePoint?
  split <;> rfl

theorem charOf_eq_some_iff {n : Nat} {c : Char} :
    (if n.isValidChar then some (Char.ofNat n) else none) = some c ↔ c.toNat = n := by
  by_cases hn : n.isValidChar
  · have htoNat : (Char.ofNat n).toNat = n := by
      rw [Char.ofNat, dif_pos hn]
      rfl
    rw [if_pos hn, Option.some_inj]
    exact ⟨fun h => h ▸ htoNat, fun h => h ▸ Char.ofNat_toNat c⟩
  · rw [if_neg hn]
    exact ⟨fun h => (by cases h), fun h => absurd (h ▸ c.valid) hn⟩

/-- The first of the four places may also hold a plus sign, which counts as a zero. -/
theorem codePoint?_eq_some_iff {h₁ h₂ h₃ h₄ c : Char} : codePoint? h₁ h₂ h₃ h₄ = some c ↔
    ∃ n₁ n₂ n₃ n₄, (IsHexDigit h₁ n₁ ∨ h₁ = '+' ∧ n₁ = 0) ∧ IsHexDigit h₂ n₂ ∧ IsHexDigit h₃ n₃ ∧
      IsHexDigit h₄ n₄ ∧ c.toNat = ((n₁ * 16 + n₂) * 16 + n₃) * 16 + n₄ := by
  have hlead (n : Nat) : (if h₁ = '+' then some 0 else hexValue? h₁) = some n ↔
      IsHexDigit h₁ n ∨ h₁ = '+' ∧ n = 0 := by
    by_cases hplus : h₁ = '+'
    · rw [if_pos hplus, Option.some_inj]
      exact ⟨fun h => .inr ⟨hplus, h.symm⟩,
        fun h => h.elim (fun hd => absurd hplus hd.ne_plus) fun h => h.2.symm⟩
    · rw [if_neg hplus, hexValue?_eq_some_iff]
      exact ⟨.inl, fun h => h.elim id fun h => absurd h.1 hplus⟩
  simp only [codePoint?_eq_bind, Option.bind_eq_some_iff, hlead, charOf_eq_some_iff,
    hexValue?_eq_some_iff]
  constructor
  · rintro ⟨n₁, hn₁, n₂, hn₂, n₃, hn₃, n₄, hn₄, hc⟩
    exact ⟨n₁, n₂, n₃, n₄, hn₁, hn₂, hn₃, hn₄, hc⟩
  · rintro ⟨n₁, n₂, n₃, n₄, hn₁, hn₂, hn₃, hn₄, hc⟩
    exact ⟨n₁, hn₁, n₂, hn₂, n₃, hn₃, n₄, hn₄, hc⟩

/-! ## What is read -/

theorem denotes_iff {quote : Char} {text value : List Char} :
    Denotes quote text value ↔ ∃ signs, Contents quote signs text value := by
  constructor
  · intro h
    induction h with
    | nil => exact ⟨0, .nil⟩
    | plain hquote hn hr hb _ ih =>
      obtain ⟨signs, h⟩ := ih
      exact ⟨signs, .plain hquote hb hn hr h⟩
    | escape _ he _ ih =>
      obtain ⟨signs, h⟩ := ih
      exact ⟨signs, .short (escaped?_eq_some_iff.1 he) h⟩
    | unicode hc _ ih =>
      obtain ⟨signs, h⟩ := ih
      obtain ⟨n₁, n₂, n₃, n₄, hn₁ | ⟨rfl, rfl⟩, hn₂, hn₃, hn₄, hc⟩ := codePoint?_eq_some_iff.1 hc
      · exact ⟨signs, .unicode hn₁ hn₂ hn₃ hn₄ hc h⟩
      · rw [Nat.zero_mul, Nat.zero_add] at hc
        exact ⟨signs + 1, .signed hn₂ hn₃ hn₄ hc h⟩
  · rintro ⟨signs, h⟩
    induction h with
    | nil => exact .nil
    | plain hquote hb hn hr _ ih => exact .plain hquote hn hr hb ih
    | @short e c signs text value he _ ih =>
      have hescaped := escaped?_eq_some_iff.2 he
      refine .escape ?_ hescaped ih
      rintro rfl
      cases hescaped
    | unicode hn₁ hn₂ hn₃ hn₄ hc _ ih =>
      exact .unicode (codePoint?_eq_some_iff.2 ⟨_, _, _, _, .inl hn₁, hn₂, hn₃, hn₄, hc⟩) ih
    | signed hn₂ hn₃ hn₄ hc _ ih =>
      refine .unicode (codePoint?_eq_some_iff.2 ⟨0, _, _, _, .inr ⟨rfl, rfl⟩, hn₂, hn₃, hn₄, ?_⟩) ih
      rw [hc, Nat.zero_mul, Nat.zero_add]

end StringLiteral

section
variable {chars : OperatorChars} {quote : Char} (hq : quote = '"' ∨ quote = '\'')
include hq

theorem Piece.read_of_quote (rest : List Char) : read chars quote rest = readString quote rest := by
  rcases hq with rfl | rfl
  · rfl
  · rfl

theorem Piece.readString_eq_ok_iff {rest after literal : List Char} {value : String} :
    readString quote rest = .ok (.lexeme .string value literal, after) ↔
      ∃ signs contents, rest = contents ++ quote :: after ∧
        StringLiteral.Contents quote signs contents value.toList ∧
        literal = quote :: (contents ++ [quote]) := by
  have hne : quote ≠ '\\' := by rcases hq with rfl | rfl <;> decide
  constructor
  · intro h
    have hread := h
    rw [readString] at hread
    split at hread
    · cases hread
    · rename_i hcontents
      cases hread
      obtain ⟨contents, rfl, hdenotes⟩ := StringLiteral.denotes_of_read hcontents
      rw [readString_of_denotes hne hdenotes] at h
      obtain ⟨signs, hsigns⟩ := StringLiteral.denotes_iff.1 hdenotes
      injection h with h
      injection h with h
      injection h with _ _ hliteral
      refine ⟨signs, contents, rfl, ?_, hliteral.symm⟩
      rwa [String.toList_ofList]
  · rintro ⟨signs, contents, rfl, hcontents, rfl⟩
    rw [readString_of_denotes hne (StringLiteral.denotes_iff.2 ⟨signs, hcontents⟩),
      String.ofList_toList]

/-- **Behind a quote there is a literal, or an error.** The next step takes a string exactly if a
literal stands there, with the text that it denotes as its value, up to the closing quote; else reading
ends at the opening quote. Escapes with a plus sign are read besides those that have four digits. -/
theorem string_scanned_iff {script : String} {pieces : List Piece} {rest : List Char}
    (h : Piece.Scans chars script.toList pieces (quote :: rest)) :
    (∀ value literal after,
      Piece.Scans chars script.toList (pieces ++ [.lexeme .string value literal]) after ↔
        ∃ signs contents, rest = contents ++ quote :: after ∧
          StringLiteral.Contents quote signs contents value.toList ∧
          literal = quote :: (contents ++ [quote])) ∧
    ((¬∃ signs contents value after, rest = contents ++ quote :: after ∧
        StringLiteral.Contents quote signs contents value) →
      ∃ cause, tokensOf chars script = .error ⟨cause, .behind (Piece.textOf pieces)⟩ ∧
        (cause = .unterminatedString ∨ ∃ escape, cause = .badEscape escape)) := by
  refine ⟨fun value literal after => ?_, fun hnone => ?_⟩
  · rw [h.append_iff, Piece.Scans.single_iff, Piece.read_of_quote hq, Piece.readString_eq_ok_iff hq]
  · cases hr : StringLiteral.read quote rest with
    | ok taken =>
      obtain ⟨value, after⟩ := taken
      obtain ⟨contents, htext, hdenotes⟩ := StringLiteral.denotes_of_read hr
      obtain ⟨signs, hcontents⟩ := StringLiteral.denotes_iff.1 hdenotes
      exact absurd ⟨signs, contents, value, after, htext, hcontents⟩ hnone
    | error cause =>
      have hread : Piece.read chars quote rest = .error cause := by
        rw [Piece.read_of_quote hq, Piece.readString, hr]
      refine ⟨cause, ?_, StringLiteral.cause_of_read hr⟩
      rw [tokensOf_eq, tokensFrom_of_stop h hread, Position.after_start]

end

theorem string_scanned_iff_at_sign :
    let script := "x='\\u+041'"
    let pieces : List Piece := [.word .name ['x'], .word .operator ['=']]
    let literal := ['\'', '\\', 'u', '+', '0', '4', '1', '\'']
    Piece.Scans .standard script.toList pieces literal ∧
      Piece.Scans .standard script.toList (pieces ++ [.lexeme .string "A" literal]) [] := by
  intro script pieces literal
  have htext : script.toList = 'x' :: '=' :: literal := by decide
  have h : Piece.Scans .standard script.toList pieces literal := htext ▸ .step rfl (.step rfl .done)
  have hvalue : "A".toList = ['A'] := by decide
  have hzero : StringLiteral.IsHexDigit '0' 0 := ⟨by decide, .inl rfl⟩
  have hfour : StringLiteral.IsHexDigit '4' 4 := ⟨by decide, .inl rfl⟩
  have hone : StringLiteral.IsHexDigit '1' 1 := ⟨by decide, .inl rfl⟩
  have hcontents : StringLiteral.Contents '\'' 1 ['\\', 'u', '+', '0', '4', '1'] "A".toList :=
    hvalue ▸ .signed hzero hfour hone rfl .nil
  exact ⟨h, ((string_scanned_iff (.inr rfl) h).1 "A" literal []).2 ⟨1, _, rfl, hcontents, rfl⟩⟩

/-! ## What is written -/

/-- **The literal that is written for a text is read as the text.** One step takes it, whatever stands
behind it, and adds one token to those of what is left. -/
theorem write_scanned (chars : OperatorChars) (value : String) (rest : List Char) :
    let literal := (Value.string value).write.toList
    ∃ c text, literal ++ rest = c :: text ∧
      Piece.read chars c text = .ok (.lexeme .string value literal, rest) ∧
      ∀ p, tokensFrom chars p (literal ++ rest) =
        (tokensFrom chars (p.after literal) rest).map (⟨.string, value, p⟩ :: ·) := by
  intro literal
  have hfits : Piece.Fits chars (.lexeme .string value literal) rest := fits_string value rest
  obtain ⟨c, text, htext, hr⟩ := Piece.read_of_fits hfits
  refine ⟨c, text, htext, hr, fun p => ?_⟩
  have hstep := tokensFrom_of_fits (p := p) hfits
  rw [Piece.text_lexeme] at hstep
  exact hstep

end ScriptTree
