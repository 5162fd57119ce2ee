import ScriptTree.Proofs.Slices

/-!
# Reading from the front

A text is read in steps, each of which takes a piece off its front (`Scans`). What a step takes is
settled by the text up to its end and the one character behind it, so a run takes the same pieces if
the text is cut off where they end. If no further piece can be read, what stands there is the
character that is to blame, and all that stands before it can be read alone (`error_of_tokensOf`).
-/

namespace ScriptTree

namespace Piece

variable {chars : OperatorChars}

/-! ## Steps -/

/-- Steps of reading take these pieces off the front of the text, and this is left of it. -/
inductive Scans (chars : OperatorChars) : List Char → List Piece → List Char → Prop
  | done {text} : Scans chars text [] text
  | step {c rest piece after pieces left} : read chars c rest = .ok (piece, after) →
      Scans chars after pieces left → Scans chars (c :: rest) (piece :: pieces) left

namespace Scans

variable {text left rest : List Char} {pieces more : List Piece}

theorem append (h : Scans chars text pieces left) (h' : Scans chars left more rest) :
    Scans chars text (pieces ++ more) rest := by
  induction h with
  | done => exact h'
  | step hr _ ih => exact .step hr (ih h')

/-- There is one way to go on reading. -/
theorem append_iff (h : Scans chars text pieces left) :
    Scans chars text (pieces ++ more) rest ↔ Scans chars left more rest := by
  refine ⟨fun h' => ?_, h.append⟩
  induction h with
  | done => exact h'
  | step hr _ ih =>
    cases h' with
    | step hr' h' =>
      cases hr.symm.trans hr'
      exact ih h'

theorem single_iff {c : Char} {piece : Piece} :
    Scans chars (c :: text) [piece] rest ↔ read chars c text = .ok (piece, rest) := by
  constructor
  · intro h
    cases h with
    | step hr h =>
      cases h
      exact hr
  · exact fun hr => .step hr .done

theorem text_eq (h : Scans chars text pieces left) : text = textOf pieces ++ left := by
  induction h with
  | done => rfl
  | step hr _ ih =>
    rw [← (text_append_of_read hr).2, ih, textOf, textOf, List.flatMap_cons, List.append_assoc]

theorem readAll_eq (h : Scans chars text pieces left) :
    readAll chars text = (pieces ++ (readAll chars left).1, (readAll chars left).2) := by
  induction h with
  | done => rfl
  | step hr _ ih => rw [readAll_cons hr, ih, List.cons_append]

end Scans

/-- A text is read up to its end, or up to a place where no piece can be read. -/
theorem scans_cases (chars : OperatorChars) (text : List Char) :
    (∃ pieces, Scans chars text pieces []) ∨
      ∃ pieces c rest cause, Scans chars text pieces (c :: rest) ∧
        read chars c rest = .error cause := by
  fun_induction readAll chars text with
  | case1 => exact .inl ⟨[], .done⟩
  | case2 c rest cause hr => exact .inr ⟨[], c, rest, cause, .done, hr⟩
  | case3 c rest piece after hr _ _ _ _ ih =>
    rcases ih with ⟨pieces, h⟩ | ⟨pieces, d, more, cause, h, hd⟩
    · exact .inl ⟨piece :: pieces, .step hr h⟩
    · exact .inr ⟨piece :: pieces, d, more, cause, .step hr h, hd⟩

/-! ## Cutting a text off -/

theorem Stops.cut {p : Char → Bool} {text more : List Char} (h : Stops p (text ++ more)) :
    Stops p text := by
  cases text with
  | nil => exact nofun
  | cons c text => exact h

/-- A slice is one also if less of the text stands behind it. -/
theorem Fits.cut {piece : Piece} {after more : List Char} (h : Fits chars piece (after ++ more)) :
    Fits chars piece after := by
  have hhead (front : List Char) (h : (front ++ (after ++ more)).head? ≠ some '/') :
      (front ++ after).head? ≠ some '/' := by
    rw [← List.append_assoc] at h
    cases hcut : front ++ after with
    | nil => exact nofun
    | cons c rest =>
      rw [hcut] at h
      exact h
  cases h with
  | blanks hne hall hstop => exact .blanks hne hall hstop.cut
  | comment hall hstop => exact .comment hall hstop.cut
  | name hc hall hstop => exact .name hc hall hstop.cut
  | number hnumeral hstop => exact .number hnumeral hstop.cut
  | string hq hd => exact .string hq hd
  | @operator c text _ hc hfirst hall hstop hslash =>
    exact .operator hc hfirst hall hstop.cut fun h => hhead text (hslash h)
  | single hc hfirst hcontrol hslash =>
    exact .single hc hfirst hcontrol fun h => hhead [] (hslash h)

theorem Fits.scans {piece : Piece} {after left : List Char} {pieces : List Piece}
    (h : Fits chars piece after) (h' : Scans chars after pieces left) :
    Scans chars (piece.text ++ after) (piece :: pieces) left := by
  obtain ⟨c, rest, htext, hr⟩ := read_of_fits h
  exact htext ▸ .step hr h'

/-- The same pieces are taken if the text is cut off somewhere behind them. -/
theorem Scans.cut {text left more : List Char} {pieces : List Piece}
    (h : Scans chars text pieces (left ++ more)) : Scans chars (textOf pieces ++ left) pieces left := by
  generalize hall : left ++ more = all at h
  induction h with
  | done => exact .done
  | @step c rest piece after pieces _ hr hscans ih =>
    have hfits : Fits chars piece (textOf pieces ++ left ++ more) := by
      rw [List.append_assoc, hall, ← hscans.text_eq]
      exact fits_of_read hr
    have := hfits.cut.scans (ih hall)
    rwa [← List.append_assoc] at this

theorem tokens_append (p : Position) (pieces more : List Piece) :
    tokens p (pieces ++ more) = tokens p pieces ++ tokens (p.after (textOf pieces)) more := by
  induction pieces generalizing p with
  | nil => rfl
  | cons piece pieces ih =>
    cases piece with
    | gap text => simp [tokens, textOf, ih]
    | lexeme kind value text => simp [tokens, textOf, ih]

theorem textOf_append (pieces more : List Piece) :
    textOf (pieces ++ more) = textOf pieces ++ textOf more := List.flatMap_append

end Piece

/-! ## Tokens of a text -/

def tokensFrom (chars : OperatorChars) (p : Position) (text : List Char) :
    Except SyntaxError (List Token) :=
  let (pieces, stop) := Piece.readAll chars text
  let finish := p.after (Piece.textOf pieces)
  match stop with
  | some cause => .error ⟨cause, finish⟩
  | none => .ok (Piece.tokens p pieces ++ [Token.ending finish])

section
variable {chars : OperatorChars}

theorem tokensOf_eq (script : String) :
    tokensOf chars script = tokensFrom chars .start script.toList := rfl

theorem tokensFrom_of_scans {p : Position} {text left : List Char} {pieces : List Piece}
    (h : Piece.Scans chars text pieces left) :
    tokensFrom chars p text =
      (tokensFrom chars (p.after (Piece.textOf pieces)) left).map (Piece.tokens p pieces ++ ·) := by
  rw [tokensFrom, tokensFrom, h.readAll_eq]
  generalize Piece.readAll chars left = run
  obtain ⟨more, stop⟩ := run
  dsimp only
  rw [Piece.textOf_append, Position.after_append, Piece.tokens_append]
  cases stop with
  | some cause => rfl
  | none => exact congrArg Except.ok (List.append_assoc ..)

/-- The step: the token of a slice, if it is one, stands in front of those of what is behind it. -/
theorem tokensFrom_of_fits {p : Position} {piece : Piece} {after : List Char}
    (h : Piece.Fits chars piece after) :
    tokensFrom chars p (piece.text ++ after) =
      (tokensFrom chars (p.after piece.text) after).map (Piece.tokens p [piece] ++ ·) := by
  rw [tokensFrom_of_scans (h.scans .done), Piece.textOf, List.flatMap_singleton]

theorem tokensFrom_nil (p : Position) : tokensFrom chars p [] = .ok [Token.ending p] := by
  rw [tokensFrom, Piece.readAll.eq_def]
  rfl

theorem tokensFrom_of_end {p : Position} {text : List Char} {pieces : List Piece}
    (h : Piece.Scans chars text pieces []) :
    tokensFrom chars p text =
      .ok (Piece.tokens p pieces ++ [Token.ending (p.after (Piece.textOf pieces))]) := by
  rw [tokensFrom_of_scans h, tokensFrom_nil]
  rfl

theorem tokensFrom_of_stop {p : Position} {text : List Char} {pieces : List Piece} {c : Char}
    {rest : List Char} {cause : Cause} (h : Piece.Scans chars text pieces (c :: rest))
    (hr : Piece.read chars c rest = .error cause) :
    tokensFrom chars p text = .error ⟨cause, p.after (Piece.textOf pieces)⟩ := by
  rw [tokensFrom_of_scans h, tokensFrom, Piece.readAll_of_error hr]
  rfl

end

/-! ## What is wrong at which character -/

theorem StringLiteral.cause_of_read {quote : Char} {text : List Char} {cause : Cause}
    (h : read quote text = .error cause) :
    cause = .unterminatedString ∨ ∃ escape, cause = .badEscape escape := by
  have hmap {r : Except Cause (List Char × List Char)} {c : Char}
      (h : r.map (push c) = .error cause) : r = .error cause := by
    cases r with
    | ok taken => cases h
    | error cause' => cases h; rfl
  fun_induction read quote text with
  | case1 | case3 | case4 => cases h; exact .inl rfl
  | case2 => cases h
  | case5 | case8 | case10 => rename_i ih; exact ih (hmap h)
  | case6 | case7 | case9 => cases h; exact .inr ⟨_, rfl⟩

/-- The characters that can be wrong for a cause: a character that is nothing, the quote in front of
a literal, the first digit of a numeral. -/
def Cause.ArisesAt (chars : OperatorChars) (c : Char) : Cause → Prop
  | .unrecognisedCharacter _ => isControl c = true ∧ isBlank c = false ∧ c ∉ chars.first
  | .unterminatedString | .badEscape _ => c = '"' ∨ c = '\''
  | .badNumber _ => c.isDigit = true
  | _ => False

theorem Piece.arisesAt_of_read {chars : OperatorChars} {c : Char} {rest : List Char} {cause : Cause}
    (h : read chars c rest = .error cause) : cause.ArisesAt chars c := by
  unfold read at h
  split at h
  · cases h
  rename_i hblank
  split at h
  · cases h
  split at h
  · cases h
  split at h
  · rename_i hdigit
    simp only [readNumeral] at h
    split at h
    · cases h
    · cases h
      exact hdigit
  split at h
  · rename_i hquote
    rw [Bool.or_eq_true, decide_eq_true_eq, decide_eq_true_eq] at hquote
    unfold readString at h
    split at h
    · rename_i hr
      cases h
      rcases StringLiteral.cause_of_read hr with rfl | ⟨escape, rfl⟩
      · exact hquote
      · exact hquote
    · cases h
  split at h
  · cases h
  rename_i hfirst
  split at h
  · rename_i hcontrol
    cases h
    refine ⟨hcontrol, Bool.eq_false_iff.2 hblank, fun hc => hfirst ?_⟩
    exact List.contains_iff_mem.2 hc
  · cases h

theorem stop_of_tokensOf {chars : OperatorChars} {script : String} {e : SyntaxError}
    (h : tokensOf chars script = .error e) :
    ∃ pieces c after, Piece.Scans chars script.toList pieces (c :: after) ∧
      Piece.read chars c after = .error e.cause ∧ e.position = .behind (Piece.textOf pieces) := by
  rw [tokensOf_eq] at h
  rcases Piece.scans_cases chars script.toList with
    ⟨pieces, hscans⟩ | ⟨pieces, c, after, cause, hscans, hr⟩
  · rw [tokensFrom_of_end hscans] at h
    cases h
  · rw [tokensFrom_of_stop hscans hr] at h
    cases h
    exact ⟨pieces, c, after, hscans, hr, Position.after_start _⟩

/-- **An error of reading stands at the first character that starts no piece.** The position leads to
that character of the text, by its line and column if the counters hold these; the cause says of what
kind it is, and the text before it can be read alone. -/
theorem error_of_tokensOf {chars : OperatorChars} {script : String} {e : SyntaxError}
    (h : tokensOf chars script = .error e) :
    ∃ before c after tokens, script.toList = before ++ c :: after ∧ e.position = .behind before ∧
      (Position.Counts script.toList → e.position.line.toNat = Position.lineBehind before ∧
        e.position.column.toNat = Position.columnBehind before) ∧
      tokensOf chars (String.ofList before) = .ok tokens ∧ e.cause.ArisesAt chars c := by
  obtain ⟨pieces, c, after, hscans, hr, hposition⟩ := stop_of_tokensOf h
  have halone : Piece.Scans chars (Piece.textOf pieces ++ []) pieces [] := .cut hscans
  rw [List.append_nil] at halone
  have hbefore := tokensFrom_of_end (p := .start) halone
  rw [← String.toList_ofList (l := Piece.textOf pieces), ← tokensOf_eq] at hbefore
  refine ⟨_, c, after, _, hscans.text_eq, hposition, fun hcounts => ?_, hbefore,
    Piece.arisesAt_of_read hr⟩
  rw [hposition]
  exact hcounts.toNat ⟨_, hscans.text_eq.symm⟩

theorem error_of_tokensOf_at_numeral :
    let script := "<=\n 3.5e;"
    let e : SyntaxError := ⟨.badNumber "3.5e", ⟨2, 2⟩⟩
    tokensOf .standard script = .error e ∧ Position.Counts script.toList ∧
      ∃ before c after tokens, script.toList = before ++ c :: after ∧
        e.position.line.toNat = Position.lineBehind before ∧
        e.position.column.toNat = Position.columnBehind before ∧
        tokensOf .standard (String.ofList before) = .ok tokens ∧ e.cause.ArisesAt .standard c := by
  intro script e
  have htext : script.toList = ['<', '=', '\n', ' ', '3', '.', '5', 'e', ';'] := by decide
  have hscans : Piece.Scans .standard script.toList [.word .operator ['<', '='], .gap ['\n', ' ']]
      ['3', '.', '5', 'e', ';'] := htext ▸ .step rfl (.step rfl .done)
  have hr : Piece.read .standard '3' ['.', '5', 'e', ';'] = .error (.badNumber "3.5e") := rfl
  have h : tokensOf .standard script = .error e := tokensFrom_of_stop hscans hr
  have hcounts : Position.Counts script.toList := Position.counts_of_length (by decide)
  obtain ⟨before, c, after, tokens, htext, -, hnumbers, hbefore, harises⟩ := error_of_tokensOf h
  obtain ⟨hline, hcolumn⟩ := hnumbers hcounts
  exact ⟨h, hcounts, before, c, after, tokens, htext, hline, hcolumn, hbefore, harises⟩

/-- Behind line ends that bring the counter back, an error stands at a place where nothing is wrong. -/
theorem misplaced_error_of_lines {n : Nat} (hpos : 0 < n) (hn : UInt32.ofNat n = 0) :
    let text := List.replicate n '\n' ++ ['\x01']
    ∃ e, tokensFrom .standard .start text = .error e ∧
      ¬∃ before c after, text = before ++ c :: after ∧
        e.position.line.toNat = Position.lineBehind before ∧
        e.position.column.toNat = Position.columnBehind before ∧ e.cause.ArisesAt .standard c := by
  intro text
  have hhead : text.head? = some '\n' := by
    rw [List.head?_append, List.head?_replicate, if_neg (Nat.ne_of_gt hpos)]
    rfl
  have hfits : Piece.Fits .standard (.gap (List.replicate n '\n')) ['\x01'] := by
    refine .blanks (fun hnil => ?_) (fun c hc => ?_) fun c hc => ?_
    · exact absurd ((List.replicate_eq_nil_iff _).1 hnil) (Nat.ne_of_gt hpos)
    · rw [List.eq_of_mem_replicate hc]
      rfl
    · cases hc
      rfl
  have hr : Piece.read .standard '\x01' [] = .error (.unrecognisedCharacter "\x01") := rfl
  have hstop := tokensFrom_of_stop (p := .start) (hfits.scans .done) hr
  rw [Piece.textOf, List.flatMap_singleton, Piece.text_gap, Position.after_newlines _ hpos, hn] at hstop
  refine ⟨_, hstop, ?_⟩
  rintro ⟨before, c, after, hsplit, hline, -, -, hvisible, -⟩
  rw [hsplit] at hhead
  cases before with
  | nil =>
    cases hhead
    cases hvisible
  | cons d before =>
    cases hhead
    have hone : (1 : Nat) = Position.lineBehind ('\n' :: before) := hline
    rw [Position.lineBehind, List.count_cons_self] at hone
    omega

/-- There are such texts. -/
theorem misplaced_error_of_overflow :
    let script := String.ofList (List.replicate UInt32.size '\n' ++ ['\x01'])
    ∃ e, tokensOf .standard script = .error e ∧
      ¬∃ before c after, script.toList = before ++ c :: after ∧
        e.position.line.toNat = Position.lineBehind before ∧
        e.position.column.toNat = Position.columnBehind before ∧ e.cause.ArisesAt .standard c := by
  intro script
  have htext : script.toList = List.replicate UInt32.size '\n' ++ ['\x01'] := String.toList_ofList
  rw [tokensOf_eq, htext]
  exact misplaced_error_of_lines (by decide) (by decide)

end ScriptTree
