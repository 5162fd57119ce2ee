import ScriptTree.SyntaxError
import ScriptTree.Text.Blank

/-!
# String literals

`StringLiteral.read` decodes a literal up to its closing quote, `StringLiteral.write` encodes a text
as a literal. What is read is never more than what is there: the rest is a suffix of the text.
-/

namespace ScriptTree

namespace StringLiteral

def escaped? (c : Char) : Option Char :=
  if c = 'n' then some '\n'
  else if c = 't' then some '\t'
  else if c = 'r' then some '\r'
  else if c = 'b' then some '\x08'
  else if c = 'f' then some '\x0c'
  else if c = '0' then some '\x00'
  else if c = '\\' || c = '/' || c = '"' || c = '\'' then some c
  else none

def hexValue? (c : Char) : Option Nat :=
  if '0' ≤ c && c ≤ '9' then some (c.toNat - '0'.toNat)
  else if 'a' ≤ c && c ≤ 'f' then some (c.toNat - 'a'.toNat + 10)
  else if 'A' ≤ c && c ≤ 'F' then some (c.toNat - 'A'.toNat + 10)
  else none

/-- The character that four digits in base sixteen name. A plus sign in front counts as a zero. -/
def codePoint? (a b c d : Char) : Option Char := do
  let a ← if a = '+' then some 0 else hexValue? a
  let b ← hexValue? b
  let c ← hexValue? c
  let d ← hexValue? d
  let n := ((a * 16 + b) * 16 + c) * 16 + d
  if n.isValidChar then some (Char.ofNat n) else none

def push (c : Char) : List Char × List Char → List Char × List Char
  | (value, rest) => (c :: value, rest)

/-- Reads the contents of a literal opened by `quote`: the decoded text, and what follows the
closing quote. A literal cannot run over a line end. -/
def read (quote : Char) : List Char → Except Cause (List Char × List Char)
  | [] => .error .unterminatedString
  | c :: rest =>
    if c = quote then .ok ([], rest)
    else if c = '\n' || c = '\r' then .error .unterminatedString
    else if c = '\\' then
      match rest with
      | [] => .error .unterminatedString
      | e :: rest =>
        if e = 'u' then
          match rest with
          | h₁ :: h₂ :: h₃ :: h₄ :: rest =>
            match codePoint? h₁ h₂ h₃ h₄ with
            | some c => (read quote rest).map (push c)
            | none => .error (.badEscape (String.ofList ['u', h₁, h₂, h₃, h₄]))
          | short => .error (.badEscape (String.ofList ('u' :: short)))
        else
          match escaped? e with
          | some c => (read quote rest).map (push c)
          | none => .error (.badEscape (String.singleton e))
    else (read quote rest).map (push c)

theorem of_map_push {r : Except Cause (List Char × List Char)} {c : Char}
    {value rest : List Char} (h : r.map (push c) = .ok (value, rest)) :
    ∃ v, value = c :: v ∧ r = .ok (v, rest) := by
  cases r with
  | error e => simp [Except.map] at h
  | ok p =>
    obtain ⟨rfl, rfl⟩ := by simpa [Except.map, push] using h
    exact ⟨_, rfl, rfl⟩

theorem read_suffix {quote : Char} {text value rest : List Char}
    (h : read quote text = .ok (value, rest)) : rest <:+ text := by
  fun_induction read quote text generalizing value rest with
  | case2 rest =>
    cases h
    exact List.suffix_cons _ _
  | case5 | case8 | case10 =>
    rename_i ih
    obtain ⟨_, _, hr⟩ := of_map_push h
    exact (ih hr).trans (by simp [List.suffix_cons_iff])
  | _ => simp at h

def fourDigits (n : Nat) : List Char :=
  let digits := hexDigits n
  List.replicate (4 - digits.length) '0' ++ digits

def writeChar (c : Char) : List Char :=
  if c = '"' then ['\\', '"']
  else if c = '\\' then ['\\', '\\']
  else if c = '\n' then ['\\', 'n']
  else if c = '\r' then ['\\', 'r']
  else if c = '\t' then ['\\', 't']
  else if c = '\x00' then ['\\', '0']
  else if isControl c then '\\' :: 'u' :: fourDigits c.toNat
  else [c]

def write (text : String) : String :=
  String.ofList ('"' :: text.toList.flatMap writeChar ++ ['"'])

end StringLiteral

end ScriptTree
