/-!
# Positions

A position is a line and a column of a text. They are counted in words of 32 bits, and a counter that
is full starts again from zero. `Position.after` walks a position over a stretch of text; walking over
two stretches is walking over their concatenation.
-/

namespace ScriptTree

/-- A place in a text; lines and columns count from one, columns in characters. -/
structure Position where
  line : UInt32
  column : UInt32
deriving DecidableEq

namespace Position

def start : Position := ⟨1, 1⟩

/-- The place behind a character that stands at `p`. -/
def next (p : Position) (c : Char) : Position :=
  if c = '\n' then ⟨p.line + 1, 1⟩ else ⟨p.line, p.column + 1⟩

def after (p : Position) (text : List Char) : Position :=
  text.foldl next p

def text (p : Position) : String :=
  p.line.toNat.repr ++ ":" ++ p.column.toNat.repr

@[simp] theorem after_nil (p : Position) : p.after [] = p := rfl

@[simp] theorem after_cons (p : Position) (c : Char) (text : List Char) :
    p.after (c :: text) = (p.next c).after text := rfl

@[simp] theorem after_append (p : Position) (text more : List Char) :
    p.after (text ++ more) = (p.after text).after more := by
  simp [after]

end Position

end ScriptTree
