import ScriptTree.Text.StringLiteral
import ScriptTree.Token

/-!
# Pieces of a script

A script falls into pieces: blanks and comments, which mean nothing, and the lexemes of its tokens.
`Piece.read` takes the piece at the front of a text; the piece and what it leaves are the text again,
so no character is lost.
-/

namespace ScriptTree

structure OperatorChars where
  first : List Char
  further : List Char

def OperatorChars.standard : OperatorChars where
  first := "=<>!+-*&|/%^".toList
  further := "=<>&|".toList

inductive Piece where
  /-- Blanks or a comment. -/
  | gap (text : List Char)
  | lexeme (kind : TokenKind) (value : String) (text : List Char)

namespace Piece

def text : Piece → List Char
  | gap text => text
  | lexeme _ _ text => text

def isNameStart (c : Char) : Bool := c.isAlpha || c == '_'

def isNameChar (c : Char) : Bool := c.isAlphanum || c == '_'

def continuesNumeral (c : Char) : Bool := isNameChar c || c == '.'

def splitFraction (text : List Char) : List Char × List Char :=
  match text with
  | '.' :: rest =>
    if (rest.takeWhile Char.isDigit).isEmpty then ([], text)
    else ('.' :: rest.takeWhile Char.isDigit, rest.dropWhile Char.isDigit)
  | _ => ([], text)

def splitSign (text : List Char) : List Char × List Char :=
  match text with
  | c :: rest => if c = '+' || c = '-' then ([c], rest) else ([], text)
  | [] => ([], [])

/-- Splits an exponent off a text, if it starts with one that has digits. -/
def splitExponent (text : List Char) : List Char × List Char :=
  match text with
  | mark :: rest =>
    if mark = 'e' || mark = 'E' then
      let (sign, rest) := splitSign rest
      if (rest.takeWhile Char.isDigit).isEmpty then ([], text)
      else (mark :: (sign ++ rest.takeWhile Char.isDigit), rest.dropWhile Char.isDigit)
    else ([], text)
  | [] => ([], [])

def splitNumeral (text : List Char) : List Char × List Char :=
  let (fraction, rest) := splitFraction (text.dropWhile Char.isDigit)
  let (exponent, rest) := splitExponent rest
  (text.takeWhile Char.isDigit ++ fraction ++ exponent, rest)

def word (kind : TokenKind) (text : List Char) : Piece :=
  lexeme kind (String.ofList text) text

/-- The numeral at the front of a text; a name or a point may not be glued to it. -/
def readNumeral (text : List Char) : Except Cause (Piece × List Char) :=
  let (numeral, rest) := splitNumeral text
  match rest.takeWhile continuesNumeral with
  | [] => .ok (word .number numeral, rest)
  | tail => .error (.badNumber (String.ofList (numeral ++ tail)))

def readString (quote : Char) (rest : List Char) : Except Cause (Piece × List Char) :=
  match StringLiteral.read quote rest with
  | .error cause => .error cause
  | .ok (value, after) =>
    let literal := quote :: rest.take (rest.length - after.length)
    .ok (lexeme .string (String.ofList value) literal, after)

/-- The piece at the front of the text `c :: rest`, and what it leaves. -/
def read (chars : OperatorChars) (c : Char) (rest : List Char) :
    Except Cause (Piece × List Char) :=
  if isBlank c then
    .ok (gap (c :: rest.takeWhile isBlank), rest.dropWhile isBlank)
  else if c = '/' && rest.head? == some '/' then
    .ok (gap (c :: rest.takeWhile (· != '\n')), rest.dropWhile (· != '\n'))
  else if isNameStart c then
    .ok (word .name (c :: rest.takeWhile isNameChar), rest.dropWhile isNameChar)
  else if c.isDigit then readNumeral (c :: rest)
  else if c = '"' || c = '\'' then readString c rest
  else if chars.first.contains c then
    .ok (word .operator (c :: rest.takeWhile chars.further.contains),
      rest.dropWhile chars.further.contains)
  else if isControl c then .error (.unrecognisedCharacter (String.singleton c))
  else .ok (word .operator [c], rest)

/-! ## Nothing is lost -/

theorem splitFraction_append (text : List Char) :
    (splitFraction text).1 ++ (splitFraction text).2 = text := by
  unfold splitFraction
  split
  · split <;> simp [List.takeWhile_append_dropWhile]
  · rfl

theorem splitSign_append (text : List Char) : (splitSign text).1 ++ (splitSign text).2 = text := by
  unfold splitSign
  split
  · split <;> rfl
  · rfl

theorem splitExponent_append (text : List Char) :
    (splitExponent text).1 ++ (splitExponent text).2 = text := by
  unfold splitExponent
  split
  · rename_i mark rest
    have := splitSign_append rest
    split
    · dsimp only
      split
      · rfl
      · rw [List.cons_append, List.append_assoc, List.takeWhile_append_dropWhile, this]
    · rfl
  · rfl

theorem splitNumeral_append (text : List Char) :
    (splitNumeral text).1 ++ (splitNumeral text).2 = text := by
  simp only [splitNumeral, List.append_assoc, splitExponent_append, splitFraction_append,
    List.takeWhile_append_dropWhile]

theorem splitNumeral_ne_nil {c : Char} (h : c.isDigit = true) (rest : List Char) :
    (splitNumeral (c :: rest)).1 ≠ [] := by
  simp [splitNumeral, h]

@[simp] theorem text_gap (t : List Char) : (gap t).text = t := rfl

@[simp] theorem text_lexeme (kind : TokenKind) (value : String) (t : List Char) :
    (lexeme kind value t).text = t := rfl

@[simp] theorem text_word (kind : TokenKind) (t : List Char) : (word kind t).text = t := rfl

theorem eq_of_readNumeral {text after : List Char} {piece : Piece}
    (h : readNumeral text = .ok (piece, after)) :
    piece = word .number (splitNumeral text).1 ∧ after = (splitNumeral text).2 := by
  simp only [readNumeral] at h
  split at h
  · cases h; exact ⟨rfl, rfl⟩
  · cases h

theorem text_append_of_readString {quote : Char} {rest after : List Char} {piece : Piece}
    (h : readString quote rest = .ok (piece, after)) :
    ∃ t, piece.text = quote :: t ∧ t ++ after = rest := by
  unfold readString at h
  split at h
  · cases h
  · rename_i hr
    cases h
    exact ⟨_, rfl, List.suffix_iff_eq_append.1 (StringLiteral.read_suffix hr)⟩

/-- A piece and what it leaves are the text it was taken from. -/
theorem text_append_of_read {chars : OperatorChars} {c : Char} {rest after : List Char}
    {piece : Piece} (h : read chars c rest = .ok (piece, after)) :
    piece.text ≠ [] ∧ piece.text ++ after = c :: rest := by
  unfold read at h
  split at h
  · cases h; simp [List.takeWhile_append_dropWhile]
  split at h
  · cases h; simp [List.takeWhile_append_dropWhile]
  split at h
  · cases h; simp [List.takeWhile_append_dropWhile]
  split at h
  · rename_i hd
    obtain ⟨rfl, rfl⟩ := eq_of_readNumeral h
    exact ⟨splitNumeral_ne_nil hd rest, splitNumeral_append (c :: rest)⟩
  split at h
  · obtain ⟨t, ht, rfl⟩ := text_append_of_readString h
    simp [ht]
  split at h
  · cases h; simp [List.takeWhile_append_dropWhile]
  split at h
  · cases h
  · cases h; simp

theorem length_lt_of_read {chars : OperatorChars} {c : Char} {rest after : List Char}
    {piece : Piece} (h : read chars c rest = .ok (piece, after)) :
    after.length < (c :: rest).length := by
  obtain ⟨hne, happ⟩ := text_append_of_read h
  have := List.length_pos_iff.2 hne
  rw [← happ, List.length_append]
  omega

/-- The pieces of a text up to its end, or up to the first place where none starts, with the cause
of that. -/
def readAll (chars : OperatorChars) : List Char → List Piece × Option Cause
  | [] => ([], none)
  | c :: rest =>
    match h : read chars c rest with
    | .error cause => ([], some cause)
    | .ok (piece, after) =>
      have := length_lt_of_read h
      let (pieces, stop) := readAll chars after
      (piece :: pieces, stop)
termination_by text => text.length
decreasing_by exact this

def textOf (pieces : List Piece) : List Char := pieces.flatMap text

def tokens (p : Position) : List Piece → List Token
  | [] => []
  | gap text :: rest => tokens (p.after text) rest
  | lexeme kind value text :: rest => ⟨kind, value, p⟩ :: tokens (p.after text) rest

end Piece

/-- The tokens of a script, with one for the end behind them; or, at the first place where no token
can be read, what is wrong there. -/
def tokensOf (chars : OperatorChars) (script : String) : Except SyntaxError (List Token) :=
  let (pieces, stop) := Piece.readAll chars script.toList
  let finish := Position.start.after (Piece.textOf pieces)
  match stop with
  | some cause => .error ⟨cause, finish⟩
  | none => .ok (Piece.tokens Position.start pieces ++ [Token.ending finish])

end ScriptTree
