import ScriptTree.Text.Hidden

/-!
# Quoted text

How a message shows a text: in double quotes, with everything spelled out that a reader could not
see or could mistake.
-/

namespace ScriptTree

def hexDigits (n : Nat) : List Char := Nat.toDigits 16 n

def quotedChar (c : Char) : List Char :=
  if c = '"' then ['\\', '"']
  else if c = '\\' then ['\\', '\\']
  else if c = '\n' then ['\\', 'n']
  else if c = '\r' then ['\\', 'r']
  else if c = '\t' then ['\\', 't']
  else if c = '\x00' then ['\\', '0']
  else if isHidden c then ['\\', 'u', '{'] ++ hexDigits c.toNat ++ ['}']
  else [c]

def quoted (text : String) : String :=
  String.ofList ('"' :: text.toList.flatMap quotedChar ++ ['"'])

end ScriptTree
