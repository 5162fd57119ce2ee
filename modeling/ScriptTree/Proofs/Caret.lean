import Mathlib.Data.Nat.Digits.Defs
import ScriptTree.Proofs.Layout
import ScriptTree.Proofs.Numerals
import ScriptTree.Proofs.Precedence
import ScriptTree.Proofs.Scanning
import ScriptTree.Proofs.Spelling
import ScriptTree.Proofs.TextLines
import ScriptTree.Report

/-!
# The arrow of a report

An error is found in front of a word, of something that is no word, or at the end of the script. There
its position leads back to: the report of the error shows the line of that number, with an arrow that
ends under the character of that column (`report_of_error`), if the arrow is not too long.
-/

namespace ScriptTree

/-! ## Where errors stand -/

/-- A place in front of something that is no blank, or at the end. -/
def Position.FacesIn (text : List Char) (p : Position) : Prop :=
  ∃ before after, text = before ++ after ∧ p = .behind before ∧ Piece.Stops isBlank after

namespace Piece

theorem faces_of_tiled {chars : OperatorChars} {pieces : List Piece} (h : Tiled chars pieces) :
    ∀ before, ∀ t ∈ tokensBehind before pieces, t.position.FacesIn (before ++ textOf pieces) := by
  induction h with
  | nil => exact fun _ _ ht => (List.not_mem_nil ht).elim
  | @cons piece pieces _ hfits _ ih =>
    intro before t ht
    have hbelow := ih (before ++ piece.text)
    rw [List.append_assoc] at hbelow
    cases piece with
    | gap text => exact hbelow t ht
    | lexeme kind value text =>
      rcases List.mem_cons.1 ht with rfl | ht
      · refine ⟨before, _, rfl, rfl, ?_⟩
        rcases stops_of_fits hfits with ⟨_, hgap, -⟩ | hstops
        · cases hgap
        · exact hstops
      · exact hbelow t ht

theorem not_isBlank_of_read {chars : OperatorChars} {c : Char} {rest : List Char} {cause : Cause}
    (h : read chars c rest = .error cause) : isBlank c = false := by
  rw [Bool.eq_false_iff]
  intro hc
  rw [read, if_pos hc] at h
  cases h

end Piece

theorem faces_of_tokensOf {chars : OperatorChars} {script : String} {tokens : List Token}
    (h : tokensOf chars script = .ok tokens) :
    tokens ≠ [] ∧ ∀ t ∈ tokens, t.position.FacesIn script.toList := by
  obtain ⟨pieces, htiled, htext, rfl⟩ := tiled_of_tokensOf h
  refine ⟨List.append_ne_nil_of_right_ne_nil _ (List.cons_ne_nil _ _), fun t ht => ?_⟩
  rcases List.mem_append.1 ht with ht | ht
  · have := Piece.faces_of_tiled htiled [] t ht
    rwa [List.nil_append, htext] at this
  · rw [List.mem_singleton.1 ht]
    exact ⟨script.toList, [], (List.append_nil _).symm, rfl, nofun⟩

theorem faces_of_error {script : String} {e : SyntaxError} (h : parseScript script = .error e) :
    e.position.FacesIn script.toList := by
  rw [parseScript] at h
  cases ht : tokensOf .standard script with
  | ok tokens =>
    rw [ht] at h
    obtain ⟨hne, hfaces⟩ := faces_of_tokensOf ht
    have hplaces := (places_of_parse .grammar hne).1
    rw [show parseTokens .grammar tokens = .error e from h] at hplaces
    obtain ⟨t, hm, hp⟩ := hplaces
    exact hp ▸ hfaces t hm
  | error e' =>
    rw [ht] at h
    cases h
    obtain ⟨pieces, c, rest, hscans, hr, hposition⟩ := stop_of_tokensOf ht
    refine ⟨Piece.textOf pieces, c :: rest, hscans.text_eq, hposition, ?_⟩
    rintro _ ⟨⟩
    exact Piece.not_isBlank_of_read hr

/-! ## Excerpts -/

section
variable {p : Char → Bool} {text more : List Char} (h : Piece.Stops p more)
include h

theorem takeWhile_append_stops : (text ++ more).takeWhile p = text.takeWhile p := by
  rw [List.takeWhile_append, Piece.takeWhile_of_stops h]
  by_cases hlen : (text.takeWhile p).length = text.length
  · rw [if_pos hlen, List.append_nil, (List.takeWhile_sublist p).eq_of_length hlen]
  · rw [if_neg hlen]

theorem dropWhile_append_stops : (text ++ more).dropWhile p = text.dropWhile p ++ more := by
  rw [List.dropWhile_append, Piece.dropWhile_of_stops h]
  by_cases hd : (text.dropWhile p).isEmpty = true
  · rw [if_pos hd, List.isEmpty_iff.1 hd, List.nil_append]
  · rw [if_neg hd]

end

theorem trimEnd_append {text more : List Char} (h : ∀ c ∈ more, isBlank c = true) :
    trimEnd (text ++ more) = trimEnd text := by
  unfold trimEnd
  rw [List.reverse_append, List.dropWhile_append_of_pos]
  exact fun c hc => h c (List.mem_reverse.1 hc)

theorem isPrefix_trimEnd (text : List Char) : trimEnd text <+: text := by
  have := List.dropWhile_suffix isBlank (l := text.reverse)
  rwa [← List.reverse_prefix, List.reverse_reverse] at this

theorem returns_hidden (line : List Char) :
    (dropReturns line).takeWhile isIndent = line.takeWhile isIndent ∧
      trimEnd ((dropReturns line).dropWhile isIndent) = trimEnd (line.dropWhile isIndent) := by
  obtain ⟨returns, happ, hall⟩ : ∃ returns, line = dropReturns line ++ returns ∧
      ∀ c ∈ returns, c = '\x0d' := by
    refine ⟨(line.reverse.takeWhile (· == '\x0d')).reverse, ?_, fun c hc => ?_⟩
    · have := congrArg List.reverse
        (List.takeWhile_append_dropWhile (p := (· == '\x0d')) (l := line.reverse))
      rw [List.reverse_append, List.reverse_reverse] at this
      exact this.symm
    · exact eq_of_beq (Piece.of_mem_takeWhile (p := (· == '\x0d')) (List.mem_reverse.1 hc))
  have hstops : Piece.Stops isIndent returns := by
    intro c hc
    rw [hall c (List.mem_of_mem_head? hc)]
    rfl
  have hblank : ∀ c ∈ returns, isBlank c = true := fun c hc => hall c hc ▸ rfl
  generalize dropReturns line = kept at happ
  rw [happ, takeWhile_append_stops hstops, dropWhile_append_stops hstops, trimEnd_append hblank]
  exact ⟨rfl, rfl⟩

theorem Field.set?_right (width : Nat) (fill c : Char) :
    ({ align := .right, width, fill } : Field).set? (String.ofList [c]) =
      if width ≤ Field.widest then some (String.ofList (List.replicate (width - 1) fill ++ [c]))
      else none := by
  simp [Field.set?, Field.set, Field.cut, Field.before]

/-- The lines of an excerpt, if its arrow is not too long. -/
theorem excerpt_eq (number : String) (line : List Char) (arrow : Nat)
    (hn : number.length + 2 ≤ Field.widest) :
    excerpt number line arrow = if arrow ≤ Field.widest then
        some (String.ofList (List.replicate (number.length + 1) ' ' ++ ['|'] ++ '\n' ::
          (number.toList ++ " | ".toList ++ trimEnd (line.dropWhile isIndent)) ++ '\n' ::
          (List.replicate number.length ' ' ++ " | ".toList ++ List.replicate (arrow - 1) '-' ++ ['^'])))
      else none := by
  have hbar := Field.set?_right (number.length + 2) ' ' '|'
  have hshaft := Field.set?_right arrow '-' '^'
  rw [if_pos hn] at hbar
  unfold excerpt
  rw [show "|" = String.ofList ['|'] from rfl, show "^" = String.ofList ['^'] from rfl, hbar, hshaft]
  by_cases ha : arrow ≤ Field.widest
  · rw [if_pos ha, if_pos ha]
    simp only [Option.bind_eq_bind, Option.bind_some, Option.pure_def, Option.some.injEq]
    rw [← String.toList_inj]
    simp [List.replicate_succ', List.append_assoc]
  · rw [if_neg ha, if_neg ha]
    rfl

/-! ## Reports -/

theorem columnBehind_eq (text : List Char) :
    Position.columnBehind text = 1 + (lineBefore text).length := by
  rw [Position.columnBehind, lineBefore, List.length_reverse]

theorem stops_isIndent {text : List Char} (h : Piece.Stops isBlank text) :
    Piece.Stops isIndent (text.takeWhile (· ≠ '\n')) := by
  intro c hc
  cases text with
  | nil => cases hc
  | cons d text =>
    rw [List.takeWhile_cons] at hc
    split at hc
    · cases hc
      refine h.imp (fun e he => ?_) c rfl
      simp only [isIndent, Bool.or_eq_true, beq_iff_eq] at he
      rcases he with rfl | rfl <;> decide
    · cases hc

/-- The line of a place is there, and no longer indented than the place is far. -/
theorem line_of_faces {text : List Char} {p : Position} (h : p.FacesIn text)
    (hcounts : Position.Counts text) :
    ∃ line, (text.splitOn '\n')[p.line.toNat - 1]? = some line ∧ 0 < p.line.toNat ∧
      (line.takeWhile isIndent).length < p.column.toNat ∧ '\n' ∉ line := by
  obtain ⟨before, after, rfl, rfl, hstops⟩ := h
  obtain ⟨hline, hcolumn⟩ := hcounts.toNat (List.prefix_append ..)
  rw [hline, hcolumn, columnBehind_eq, Position.lineBehind]
  refine ⟨lineBefore before ++ after.takeWhile (· ≠ '\n'), ?_, ?_, ?_, ?_⟩
  · rw [Nat.add_sub_cancel_left]
    exact splitOn_line before after
  · exact Nat.lt_add_right _ Nat.one_pos
  · rw [takeWhile_append_stops (stops_isIndent hstops)]
    have := (List.takeWhile_sublist isIndent (l := lineBefore before)).length_le
    omega
  · intro hm
    rcases List.mem_append.1 hm with hm | hm
    · exact not_mem_lineBefore before hm
    · simpa using Piece.of_mem_takeWhile hm

theorem report_of_faces {e : SyntaxError} (file : String) {source : String} {line : List Char}
    (hline : (source.toList.splitOn '\n')[e.position.line.toNat - 1]? = some line)
    (hpos : 0 < e.position.line.toNat) (hwidth : e.position.line.toNat.repr.length + 2 ≤ Field.widest)
    (hindent : (line.takeWhile isIndent).length < e.position.column.toNat) (hn : '\n' ∉ line) :
    let far := e.position.column.toNat - (line.takeWhile isIndent).length
    if far ≤ Field.widest then
      ∃ text upper, e.report file source = some text ∧ text.toList.splitOn '\n' = upper ++
        [e.position.line.toNat.repr.toList ++ " | ".toList ++ trimEnd (line.dropWhile isIndent),
          List.replicate e.position.line.toNat.repr.length ' ' ++ " | ".toList ++
            List.replicate (far - 1) '-' ++ ['^']]
    else e.report file source = none := by
  intro far
  have hat : lineAt? source e.position.line.toNat = some (dropReturns line) := by
    rw [lineAt?, if_neg (Nat.ne_of_gt hpos), hline]
    rfl
  have harrow : max 1 (e.position.column.toNat - ((dropReturns line).takeWhile isIndent).length) = far := by
    rw [(returns_hidden line).1]
    omega
  have hexcerpt := excerpt_eq e.position.line.toNat.repr (dropReturns line) far hwidth
  rw [(returns_hidden line).2] at hexcerpt
  unfold SyntaxError.report
  rw [hat]
  dsimp only
  rw [harrow, hexcerpt]
  by_cases hfar : far ≤ Field.widest
  · rw [if_pos hfar, if_pos hfar]
    have hupper : '\n' ∉ e.position.line.toNat.repr.toList ++ " | ".toList ++
        trimEnd (line.dropWhile isIndent) := by
      have hshown := (isPrefix_trimEnd (line.dropWhile isIndent)).subset
      have hdrop := (List.dropWhile_suffix isIndent (l := line)).subset
      simp only [List.mem_append, not_or]
      exact ⟨⟨not_mem_repr _, by decide⟩, fun h => hn (hdrop (hshown h))⟩
    have hlower : '\n' ∉ List.replicate e.position.line.toNat.repr.length ' ' ++ " | ".toList ++
        List.replicate (far - 1) '-' ++ ['^'] := by
      simp [List.mem_replicate]
    let above := (e.headline ++ "\n" ++ ("-> " ++ file ++ ":" ++ e.position.text) ++ "\n").toList ++
      (List.replicate (e.position.line.toNat.repr.length + 1) ' ' ++ ['|'])
    refine ⟨_, above.splitOn '\n', rfl, ?_⟩
    rw [← splitOn_last above hupper hlower, String.toList_append, String.toList_ofList]
    simp only [above, List.append_assoc, List.cons_append]
  · rw [if_neg hfar, if_neg hfar]
    rfl

theorem drop_indent (line : List Char) :
    line.drop (line.takeWhile isIndent).length = line.dropWhile isIndent := by
  have h : (line.takeWhile isIndent ++ line.dropWhile isIndent).drop
      (line.takeWhile isIndent).length = line.dropWhile isIndent := List.drop_left
  rwa [List.takeWhile_append_dropWhile] at h

theorem length_repr_le (n : UInt32) : n.toNat.repr.length + 2 ≤ Field.widest := by
  have := Nat.repr_length n.toNat 10 (by decide) (Nat.lt_trans n.toNat_lt (by decide))
  unfold Field.widest
  omega

/-- What stands above the end of the arrow stands in the line where the error is. -/
theorem char_above (label : List Char) {row : List Char} {indent column : Nat} {c : Char}
    (h : indent < column)
    (hc : (label ++ trimEnd (row.drop indent))[label.length + (column - 1 - indent)]? = some c) :
    row[column - 1]? = some c := by
  rw [List.getElem?_append_right (Nat.le_add_right ..), Nat.add_sub_cancel_left] at hc
  obtain ⟨hlt, hget⟩ := List.getElem?_eq_some_iff.1 hc
  have hline := List.prefix_iff_getElem?.1 (isPrefix_trimEnd (row.drop indent)) _ hlt
  rw [hget, List.getElem?_drop] at hline
  rwa [show indent + (column - 1 - indent) = column - 1 by omega] at hline

/-- **The arrow points at the column of the error.** The last two lines of a report are the line of the
error without its indentation, and an arrow whose head stands under the column; bars stand under
bars. There is no report exactly if the arrow would be longer than the widest field. -/
theorem report_of_error {source : String} (file : String) {e : SyntaxError}
    (h : parseScript source = .error e) (hcounts : Position.Counts source.toList) :
    let line := e.position.line.toNat
    let column := e.position.column.toNat
    ∃ row, (source.toList.splitOn '\n')[line - 1]? = some row ∧ 0 < line ∧
      let indent := (row.takeWhile isIndent).length
      let label := line.repr.toList ++ " | ".toList
      let above := label ++ trimEnd (row.drop indent)
      let shaft := List.replicate line.repr.length ' ' ++ " | ".toList ++
        List.replicate (column - 1 - indent) '-'
      indent < column ∧
      (∀ c, above[shaft.length]? = some c → row[column - 1]? = some c) ∧
      if column - indent ≤ Field.widest then
        ∃ text upper, e.report file source = some text ∧
          text.toList.splitOn '\n' = upper ++ [above, shaft ++ ['^']]
      else e.report file source = none := by
  intro line column
  obtain ⟨row, hline, hpos, hindent, hn⟩ := line_of_faces (faces_of_error h) hcounts
  refine ⟨row, hline, hpos, hindent, fun c hc => ?_, ?_⟩
  · refine char_above (line.repr.toList ++ " | ".toList) hindent ?_
    rw [← hc]
    congr 1
    simp only [List.length_append, List.length_replicate, String.length_toList]
  · have hreport := report_of_faces file hline hpos (length_repr_le _) hindent hn
    rw [drop_indent, Nat.sub_right_comm]
    exact hreport

theorem report_of_error_at_value :
    let source := "a = 1;\n\tb = ; // ?"
    ∃ e, parseScript source = .error e ∧ Position.Counts source.toList ∧
      ∃ text upper, e.report "f" source = some text ∧
        text.toList.splitOn '\n' = upper ++ ["2 | b = ; // ?".toList, "  | ----^".toList] := by
  intro source
  have htokens : tokensOf .standard source = .ok [⟨.name, "a", ⟨1, 1⟩⟩, ⟨.operator, "=", ⟨1, 3⟩⟩,
      ⟨.number, "1", ⟨1, 5⟩⟩, ⟨.operator, ";", ⟨1, 6⟩⟩, ⟨.name, "b", ⟨2, 2⟩⟩, ⟨.operator, "=", ⟨2, 4⟩⟩,
      ⟨.operator, ";", ⟨2, 6⟩⟩, .ending ⟨2, 12⟩] := eq_ok_of_toOption (by decide +kernel)
  have h : parseScript source = .error ⟨.noOperand ";", ⟨2, 6⟩⟩ := by
    rw [parseScript, htokens]
    rfl
  have hcounts : Position.Counts source.toList := Position.counts_of_length (by decide)
  obtain ⟨line, hline, -, -, -, hreport⟩ := report_of_error "f" h hcounts
  have heq : (source.toList.splitOn '\n')[1]? = some "\tb = ; // ?".toList := by decide
  cases hline.symm.trans heq
  rw [if_pos (by decide)] at hreport
  exact ⟨_, h, hcounts, hreport⟩

end ScriptTree
