import ScriptTree.Position

/-!
# Places in a source text

The lines of a text by their number, and a cursor that moves over a text by bytes of its UTF-8 form
while it keeps count of line and column.
-/

namespace ScriptTree

def dropReturns (line : List Char) : List Char :=
  (line.reverse.dropWhile (· == '\x0d')).reverse

/-- The line of a number, counted from one, without its line end. -/
def lineAt? (source : String) (number : Nat) : Option (List Char) :=
  if number = 0 then none
  else (source.toList.splitOn '\n')[number - 1]?.map dropReturns

structure Cursor where
  rest : List Char
  position : Position

namespace Cursor

def ofText (text : String) : Cursor := ⟨text.toList, Position.start⟩

def atEnd (cursor : Cursor) : Bool := cursor.rest.isEmpty

/-- Moves over that many bytes, or to the end if there are fewer. No place lies inside a
character. -/
def skip? : Nat → List Char → Position → Option Cursor
  | 0, rest, p => some ⟨rest, p⟩
  | _, [], p => some ⟨[], p⟩
  | n, c :: rest, p => if n < c.utf8Size then none else skip? (n - c.utf8Size) rest (p.next c)

def advance? (cursor : Cursor) (bytes : Nat) : Option Cursor :=
  skip? bytes cursor.rest cursor.position

def byteSize : List Char → Nat
  | [] => 0
  | c :: text => c.utf8Size + byteSize text

@[simp] theorem byteSize_nil : byteSize [] = 0 := rfl

@[simp] theorem byteSize_cons (c : Char) (text : List Char) :
    byteSize (c :: text) = c.utf8Size + byteSize text := rfl

theorem skip?_append (passed rest : List Char) (p : Position) :
    skip? (byteSize passed) (passed ++ rest) p = some ⟨rest, p.after passed⟩ := by
  induction passed generalizing p with
  | nil => rw [byteSize_nil, List.nil_append, skip?, Position.after_nil]
  | cons c passed ih =>
    have hpos := c.utf8Size_pos
    rw [byteSize_cons, List.cons_append, skip?.eq_3 _ _ _ _ (by omega), if_neg (by omega),
      Nat.add_sub_cancel_left, ih, Position.after_cons]

theorem skip?_of_lt {text : List Char} {n : Nat} (h : byteSize text < n) (p : Position) :
    skip? n text p = some ⟨[], p.after text⟩ := by
  induction text generalizing n p with
  | nil => rw [skip?.eq_2 _ _ (by omega), Position.after_nil]
  | cons c text ih =>
    rw [byteSize_cons] at h
    rw [skip?.eq_3 _ _ _ _ (by omega), if_neg (by omega), ih (by omega), Position.after_cons]

theorem passed_of_skip? {n : Nat} {rest : List Char} {p : Position} {cursor : Cursor}
    (h : skip? n rest p = some cursor) :
    ∃ passed, rest = passed ++ cursor.rest ∧ cursor.position = p.after passed ∧
      (byteSize passed = n ∨ cursor.atEnd = true ∧ byteSize passed < n) := by
  fun_induction skip? n rest p with
  | case1 =>
    cases h
    exact ⟨[], rfl, rfl, .inl rfl⟩
  | case2 n p hn =>
    cases h
    exact ⟨[], rfl, rfl, .inr ⟨rfl, Nat.pos_of_ne_zero hn⟩⟩
  | case3 => cases h
  | case4 n c rest p _ hle ih =>
    obtain ⟨passed, rfl, hposition, hbytes⟩ := ih h
    refine ⟨c :: passed, rfl, hposition, ?_⟩
    rw [byteSize_cons]
    exact hbytes.imp (fun heq => by omega) fun ⟨hend, hlt⟩ => ⟨hend, by omega⟩

/-- **A cursor moves over as many bytes as it is told, or to the end**, and keeps count of its place
on the way. -/
theorem advance?_eq_some_iff {cursor further : Cursor} {bytes : Nat} :
    cursor.advance? bytes = some further ↔
      ∃ passed, cursor.rest = passed ++ further.rest ∧
        further.position = cursor.position.after passed ∧
        (byteSize passed = bytes ∨ further.atEnd = true ∧ byteSize passed < bytes) := by
  refine ⟨passed_of_skip?, ?_⟩
  rintro ⟨passed, hrest, hposition, hbytes⟩
  rw [advance?, hrest]
  have hfurther : further = ⟨further.rest, cursor.position.after passed⟩ := hposition ▸ rfl
  rcases hbytes with rfl | ⟨hend, hlt⟩
  · rw [skip?_append, ← hfurther]
  · rw [List.isEmpty_iff.1 hend, List.append_nil, skip?_of_lt hlt, hfurther, List.isEmpty_iff.1 hend]

end Cursor

end ScriptTree
