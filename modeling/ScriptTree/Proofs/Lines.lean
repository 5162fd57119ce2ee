import ScriptTree.Proofs.Scanning

/-!
# Lines of a script

A line end stops every lexeme and every comment, and nothing but blanks goes over it. So a script is
read line by line: what stands behind a line end is read as it would be alone, only further down
(`tokensOf_append_line`).
-/

namespace ScriptTree

/-! ## Further down -/

/-- The place that many lines further down, as the counter gives it. -/
def Position.lower (n : Nat) (p : Position) : Position := ⟨p.line + .ofNat n, p.column⟩

def Token.lower (n : Nat) (t : Token) : Token := { t with position := t.position.lower n }

def SyntaxError.lower (n : Nat) (e : SyntaxError) : SyntaxError :=
  { e with position := e.position.lower n }

theorem Position.next_lower (n : Nat) (p : Position) (c : Char) :
    (p.lower n).next c = (p.next c).lower n := by
  unfold next
  by_cases hc : c = '\n'
  · rw [if_pos hc, if_pos hc, lower, lower, UInt32.add_assoc, UInt32.add_comm (.ofNat n),
      ← UInt32.add_assoc]
  · rw [if_neg hc, if_neg hc]
    rfl

theorem Position.toNat_lower {n : Nat} {before : List Char} (h : lineBehind before + n < UInt32.size) :
    ((behind before).lower n).line.toNat = (behind before).line.toNat + n := by
  have hline : (behind before).line.toNat = lineBehind before := toNat_line (by omega)
  have hn : (UInt32.ofNat n).toNat = n := UInt32.toNat_ofNat_of_lt (show n < UInt32.size by omega)
  rw [lower, UInt32.toNat_add, hn, hline]
  exact Nat.mod_eq_of_lt h

theorem Position.after_lower (n : Nat) (p : Position) (text : List Char) :
    (p.lower n).after text = (p.after text).lower n := by
  induction text generalizing p with
  | nil => rfl
  | cons c text ih => rw [after_cons, after_cons, next_lower, ih]

theorem Piece.tokens_lower (n : Nat) (p : Position) (pieces : List Piece) :
    tokens (p.lower n) pieces = (tokens p pieces).map (Token.lower n) := by
  induction pieces generalizing p with
  | nil => rfl
  | cons piece pieces ih =>
    cases piece with
    | gap text => rw [tokens, tokens, Position.after_lower, ih]
    | lexeme kind value text =>
      rw [tokens, tokens, Position.after_lower, ih, List.map_cons]
      rfl

section
variable {chars : OperatorChars}

/-- A text further down is read as the same tokens, and the same is wrong in it. -/
theorem tokensFrom_lower (n : Nat) (p : Position) (text : List Char) :
    tokensFrom chars (p.lower n) text =
      ((tokensFrom chars p text).mapError (SyntaxError.lower n)).map (List.map (Token.lower n)) := by
  rw [tokensFrom, tokensFrom]
  generalize Piece.readAll chars text = run
  obtain ⟨pieces, stop⟩ := run
  dsimp only
  rw [Position.after_lower]
  cases stop with
  | some cause => rfl
  | none =>
    refine congrArg Except.ok ?_
    rw [List.map_append, Piece.tokens_lower]
    rfl

/-! ## Over a line end -/

theorem Piece.stops_append {p : Char → Bool} (hp : p '\n' = false) {text more : List Char}
    (h : Stops p text) (hmore : ∀ c ∈ more.head?, c = '\n') : Stops p (text ++ more) := by
  intro c hc
  cases text with
  | nil => exact hmore c hc ▸ hp
  | cons d text => exact h c hc

theorem Piece.fits_append {piece : Piece} {after more : List Char} (h : Fits chars piece after)
    (hn : '\n' ∉ chars.further) (hmore : ∀ c ∈ more.head?, c = '\n') :
    (∃ text, piece = .gap text ∧ ∀ c ∈ text, isBlank c = true) ∨ Fits chars piece (after ++ more) := by
  have hslash {front : List Char} (hf : front.head? ≠ some '/') :
      (front ++ more).head? ≠ some '/' := by
    cases front with
    | nil => exact fun hc => absurd (hmore '/' hc) (by decide)
    | cons c front => exact hf
  have hfurther : chars.further.contains '\n' = false :=
    Bool.eq_false_iff.2 fun hc => hn (List.contains_iff_mem.1 hc)
  cases h with
  | blanks _ hall _ => exact .inl ⟨_, rfl, hall⟩
  | comment hall hstop => exact .inr (.comment hall (stops_append rfl hstop hmore))
  | name hc hall hstop => exact .inr (.name hc hall (stops_append rfl hstop hmore))
  | number hnumeral hstop => exact .inr (.number hnumeral (stops_append rfl hstop hmore))
  | string hq hd => exact .inr (.string hq hd)
  | operator hc hfirst hall hstop hcomment =>
    refine .inr (.operator hc hfirst hall (stops_append hfurther hstop hmore) fun h => ?_)
    rw [← List.append_assoc]
    exact hslash (hcomment h)
  | single hc hfirst hcontrol hcomment =>
    exact .inr (.single hc hfirst hcontrol fun h => hslash (hcomment h))

theorem map_nil_append {ε α : Type} (x : Except ε (List α)) : x.map ([] ++ ·) = x := by
  cases x <;> rfl

theorem map_append_append {ε α : Type} (x : Except ε (List α)) (front more : List α) :
    (x.map (more ++ ·)).map (front ++ ·) = x.map (front ++ more ++ ·) := by
  cases x with
  | error e => rfl
  | ok list => exact congrArg Except.ok (List.append_assoc ..).symm

theorem tokensFrom_run {p : Position} {text after : List Char} (h : ∀ c ∈ text, isBlank c = true)
    (hstop : Piece.Stops isBlank after) :
    tokensFrom chars p (text ++ after) = tokensFrom chars (p.after text) after := by
  by_cases hne : text = []
  · rw [hne]
    rfl
  · have hfits : Piece.Fits chars (.gap text) after := .blanks hne h hstop
    exact (tokensFrom_of_fits hfits).trans (map_nil_append _)

theorem tokensFrom_blanks {p : Position} {text : List Char} (h : ∀ c ∈ text, isBlank c = true)
    (after : List Char) : tokensFrom chars p (text ++ after) = tokensFrom chars (p.after text) after := by
  have hrun : ∀ c ∈ after.takeWhile isBlank, isBlank c = true := fun _ => Piece.of_mem_takeWhile
  have hstop := Piece.stops_dropWhile isBlank after
  calc tokensFrom chars p (text ++ after)
      = tokensFrom chars p (text ++ after.takeWhile isBlank ++ after.dropWhile isBlank) := by
        rw [List.append_assoc, List.takeWhile_append_dropWhile]
    _ = tokensFrom chars ((p.after text).after (after.takeWhile isBlank)) (after.dropWhile isBlank) := by
        rw [tokensFrom_run (List.forall_mem_append.2 ⟨h, hrun⟩) hstop, Position.after_append]
    _ = tokensFrom chars (p.after text) after := by
        rw [← tokensFrom_run hrun hstop, List.takeWhile_append_dropWhile]

/-- A slice in front of a line end is read as it is at the end of the text. -/
theorem tokensFrom_slice (hn : '\n' ∉ chars.further) {p : Position} {piece : Piece}
    {after more : List Char} (h : Piece.Fits chars piece after) (hmore : ∀ c ∈ more.head?, c = '\n') :
    tokensFrom chars p (piece.text ++ (after ++ more)) =
      (tokensFrom chars (p.after piece.text) (after ++ more)).map (Piece.tokens p [piece] ++ ·) := by
  rcases Piece.fits_append h hn hmore with ⟨text, rfl, hall⟩ | hfits
  · rw [Piece.text_gap, tokensFrom_blanks hall]
    exact (map_nil_append _).symm
  · exact tokensFrom_of_fits hfits

/-- Lines that can be read alone do not change how the lines behind them are read. -/
theorem tokensFrom_append (hn : '\n' ∉ chars.further) {p : Position} {text more : List Char}
    {pieces : List Piece} (h : Piece.Scans chars text pieces []) (hmore : ∀ c ∈ more.head?, c = '\n') :
    tokensFrom chars p (text ++ more) =
      (tokensFrom chars (p.after text) more).map (Piece.tokens p pieces ++ ·) := by
  generalize hleft : ([] : List Char) = left at h
  induction h generalizing p with
  | done =>
    rw [← hleft]
    exact (map_nil_append _).symm
  | @step c rest piece after pieces _ hr _ ih =>
    have htext := (Piece.text_append_of_read hr).2
    have htokens := Piece.tokens_append p [piece] pieces
    rw [Piece.textOf, List.flatMap_singleton] at htokens
    rw [← htext, List.append_assoc, tokensFrom_slice hn (Piece.fits_of_read hr) hmore, ih hleft,
      Position.after_append, map_append_append, ← htokens]
    rfl

/-- **Lines are read one behind the other.** Behind a text that can be read and a line end stands what
stands in the lines that follow by themselves: the same tokens or the same error, as many lines
further down as there are in front. The numbers of these lines are larger by as much if the counter
holds them. -/
theorem tokensOf_append_line {a b : String} {tokens : List Token} (hn : '\n' ∉ chars.further)
    (ha : tokensOf chars a = .ok tokens) :
    let down := 1 + a.toList.count '\n'
    let lowers (p : Position) := down + Position.lineBehind b.toList < UInt32.size →
      (p.lower down).line.toNat = p.line.toNat + down
    ∃ front, tokens = front ++ [Token.ending (.behind a.toList)] ∧
      (∀ others, tokensOf chars b = .ok others →
        tokensOf chars (a ++ "\n" ++ b) = .ok (front ++ others.map (Token.lower down)) ∧
        ∀ t ∈ others, lowers t.position) ∧
      ∀ e, tokensOf chars b = .error e →
        tokensOf chars (a ++ "\n" ++ b) = .error (e.lower down) ∧ lowers e.position := by
  intro down lowers
  have hlowers {before : List Char} (hb : before <+: b.toList) : lowers (.behind before) := by
    intro hfew
    have := Position.lineBehind_mono hb
    exact Position.toNat_lower (by omega)
  rcases Piece.scans_cases chars a.toList with ⟨pieces, hscans⟩ | ⟨_, _, _, _, hscans, hr⟩
  · have htext := hscans.text_eq
    rw [List.append_nil] at htext
    rw [tokensOf_eq, tokensFrom_of_end hscans, ← htext, Position.after_start] at ha
    cases ha
    have hplace : (Position.start.after a.toList).after ['\n'] = Position.start.lower down := by
      rw [Position.after_start]
      exact congrArg (Position.mk · 1) (UInt32.add_comm ..)
    have hblank : ∀ c ∈ ['\n'], isBlank c = true := fun c hc => by
      rw [List.mem_singleton.1 hc]
      rfl
    have hend : ∀ c ∈ ('\n' :: b.toList).head?, c = '\n' := by
      rintro _ ⟨⟩
      rfl
    have hall : tokensOf chars (a ++ "\n" ++ b) =
        (tokensFrom chars (Position.start.lower down) b.toList).map (Piece.tokens .start pieces ++ ·) := by
      have htext : (a ++ "\n" ++ b).toList = a.toList ++ '\n' :: b.toList := by
        rw [String.toList_append, String.toList_append, List.append_assoc]
        rfl
      rw [tokensOf_eq, htext, tokensFrom_append hn hscans hend, ← hplace, ← tokensFrom_blanks hblank]
      rfl
    rw [tokensFrom_lower, ← tokensOf_eq] at hall
    refine ⟨_, rfl, fun others hb => ⟨?_, fun t ht => ?_⟩, fun e hb => ⟨?_, ?_⟩⟩
    · rw [hall, hb]
      rfl
    · obtain ⟨before, hprefix, hposition⟩ := prefix_of_tokensOf hb t ht
      exact hposition ▸ hlowers hprefix
    · rw [hall, hb]
      rfl
    · obtain ⟨stopped, c, after, hstop, -, hposition⟩ := stop_of_tokensOf hb
      exact hposition ▸ hlowers ⟨_, hstop.text_eq.symm⟩
  · rw [tokensOf_eq, tokensFrom_of_stop hscans hr] at ha
    cases ha

theorem tokensOf_append_line_at_comment :
    let a := "x <\n y // 1"
    let b := "  'z'"
    let tokens : List Token := [⟨.name, "x", ⟨1, 1⟩⟩, ⟨.operator, "<", ⟨1, 3⟩⟩, ⟨.name, "y", ⟨2, 2⟩⟩]
    '\n' ∉ OperatorChars.standard.further ∧
      tokensOf .standard a = .ok (tokens ++ [.ending ⟨2, 8⟩]) ∧
      tokensOf .standard b = .ok [⟨.string, "z", ⟨1, 3⟩⟩, .ending ⟨1, 6⟩] ∧
      2 + Position.lineBehind b.toList < UInt32.size ∧
      tokensOf .standard (a ++ "\n" ++ b) =
        .ok (tokens ++ [⟨.string, "z", ⟨3, 3⟩⟩, .ending ⟨3, 6⟩]) ∧
      (3 : UInt32).toNat = (1 : UInt32).toNat + 2 := by
  intro a b tokens
  have hn : '\n' ∉ OperatorChars.standard.further := by decide
  have ha : tokensOf .standard a = .ok (tokens ++ [.ending ⟨2, 8⟩]) :=
    eq_ok_of_toOption (by decide +kernel)
  have hb : tokensOf .standard b = .ok [⟨.string, "z", ⟨1, 3⟩⟩, .ending ⟨1, 6⟩] :=
    eq_ok_of_toOption (by decide +kernel)
  obtain ⟨front, hfront, hall, -⟩ := tokensOf_append_line (b := b) hn ha
  have hbehind : Position.behind a.toList = ⟨2, 8⟩ := by decide
  rw [hbehind] at hfront
  cases List.append_cancel_right hfront
  have hcount : a.toList.count '\n' = 1 := by decide
  rw [hcount] at hall
  obtain ⟨hwhole, hlowers⟩ := hall _ hb
  have hfew : 2 + Position.lineBehind b.toList < UInt32.size := by decide
  exact ⟨hn, ha, hb, hfew, hwhole, hlowers _ (List.mem_cons_self ..) hfew⟩

theorem tokensFrom_newlines {n : Nat} (h : 0 < n) (p : Position) (text : List Char) :
    tokensFrom chars p (List.replicate n '\n' ++ text) =
      tokensFrom chars ⟨p.line + .ofNat n, 1⟩ text := by
  have hblank : ∀ c ∈ List.replicate n '\n', isBlank c = true := fun c hc => by
    rw [List.eq_of_mem_replicate hc]
    rfl
  rw [tokensFrom_blanks hblank, Position.after_newlines p h]

/-- Behind as many lines as the counter has numbers, a text is read as if nothing stood in front. -/
theorem tokensOf_append_line_overflow :
    let a := String.ofList (List.replicate (UInt32.size - 1) '\n')
    '\n' ∉ OperatorChars.standard.further ∧ tokensOf .standard a = .ok [.ending ⟨0, 1⟩] ∧
      tokensOf .standard "x" = .ok [⟨.name, "x", ⟨1, 1⟩⟩, .ending ⟨1, 2⟩] ∧
      tokensOf .standard (a ++ "\n" ++ "x") = .ok [⟨.name, "x", ⟨1, 1⟩⟩, .ending ⟨1, 2⟩] ∧
      (1 : UInt32).toNat ≠ (1 : UInt32).toNat + (1 + a.toList.count '\n') := by
  intro a
  have hx : tokensOf .standard "x" = .ok [⟨.name, "x", ⟨1, 1⟩⟩, .ending ⟨1, 2⟩] :=
    eq_ok_of_toOption (by decide +kernel)
  have htext : a.toList = List.replicate (UInt32.size - 1) '\n' := String.toList_ofList
  have hall : (a ++ "\n" ++ "x").toList = List.replicate (UInt32.size - 1 + 1) '\n' ++ "x".toList := by
    rw [String.toList_append, String.toList_append, htext, show "\n".toList = ['\n'] from rfl,
      ← List.replicate_succ']
  refine ⟨by decide, ?_, hx, ?_, ?_⟩
  · rw [tokensOf_eq, htext, ← List.append_nil (List.replicate _ _),
      tokensFrom_newlines (by decide), tokensFrom_nil]
    rfl
  · rw [tokensOf_eq, hall, tokensFrom_newlines (by decide)]
    exact hx
  · exact Nat.ne_of_lt (Nat.lt_add_of_pos_right (Nat.add_pos_left Nat.one_pos _))

end

end ScriptTree
