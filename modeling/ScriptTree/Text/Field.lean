/-!
# Fields of a fixed width

A text set into a field is cut to a greatest length, if one is given, and then filled up to a least
width. `Field.set` never cuts for the sake of the width; `Field.set?` is for a width that is only
reckoned as the program runs, where a field that is too wide ends the run.
-/

namespace ScriptTree

inductive Align where
  | left
  | right
  | center
deriving DecidableEq

structure Field where
  align : Align := .left
  width : Nat := 0
  limit : Option Nat := none
  fill : Char := ' '

namespace Field

def cut (field : Field) (text : List Char) : List Char :=
  match field.limit with
  | none => text
  | some n => text.take n

/-- How much fill stands before a text that leaves `room` characters; centred text puts the odd one
behind itself. -/
def before (field : Field) (room : Nat) : Nat :=
  match field.align with
  | .left => 0
  | .right => room
  | .center => room / 2

def set (field : Field) (text : String) : String :=
  let kept := field.cut text.toList
  let room := field.width - kept.length
  let before := field.before room
  String.ofList (List.replicate before field.fill ++ kept ++ List.replicate (room - before) field.fill)

/-- The greatest width that can be asked for as the program runs. -/
def widest : Nat := 65535

def set? (field : Field) (text : String) : Option String :=
  if field.width ≤ widest then some (field.set text) else none

end Field

end ScriptTree
