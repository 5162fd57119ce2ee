import ScriptTree.Proofs.Words

/-!
# Texts that yield words

A text is cut into words and blanks from its front. `Yields` says that a text is cut into certain
words wherever it stands, as long as the text behind it does not start with a character that would go
on with its last word; texts that end so that anything may follow are `Closed`.
-/

namespace ScriptTree

open Piece

/-! ## Cutting a text -/

/-- A text is cut into these words, and blanks and comments between them. -/
inductive Cuts : List Char → List Word → Prop
  | nil : Cuts [] []
  | blank {c text ws} : isBlank c = true → Cuts text ws → Cuts (c :: text) ws
  | comment {text after ws} : (∀ c ∈ text, c ≠ '\n') → Stops (· != '\n') after → Cuts after ws →
      Cuts ('/' :: '/' :: text ++ after) ws
  | lexeme {kind value text after ws} : Fits .standard (.lexeme kind value text) after →
      Cuts after ws → Cuts (text ++ after) ((kind, value) :: ws)

def Piece.words : List Piece → List Word
  | [] => []
  | gap _ :: rest => words rest
  | lexeme kind value _ :: rest => (kind, value) :: words rest

theorem map_word_tokensBehind (before : List Char) (pieces : List Piece) :
    (tokensBehind before pieces).map Token.word = Piece.words pieces := by
  induction pieces generalizing before with
  | nil => rfl
  | cons piece rest ih =>
    cases piece with
    | gap text => exact ih _
    | lexeme kind value text => exact congrArg ((kind, value) :: ·) (ih _)

theorem stops_of_fits {chars : OperatorChars} {piece : Piece} {after : List Char}
    (h : Fits chars piece after) :
    (∃ text, piece = .gap text ∧ ∀ c ∈ text, isBlank c = true) ∨
      Stops isBlank (piece.text ++ after) := by
  cases h with
  | @blanks text _ _ hall => exact .inl ⟨text, rfl, hall⟩
  | comment =>
    right
    rintro _ ⟨⟩
    decide
  | name hc =>
    right
    rintro _ ⟨⟩
    exact not_isBlank_of_isNameChar (isNameChar_of_isNameStart hc)
  | number hnumeral =>
    obtain ⟨c, rest, rfl, hc⟩ := isDigit_of_isNumeral hnumeral
    right
    rintro _ ⟨⟩
    exact not_isBlank_of_isNameChar (isDigit_isNameChar _ hc)
  | string hq =>
    right
    rintro _ ⟨⟩
    rcases hq with rfl | rfl <;> decide
  | operator hc | single hc =>
    right
    rintro _ ⟨⟩
    exact hc.1

/-- A text that is cut into words falls into slices that hold them. -/
theorem tiled_of_cuts {text : List Char} {ws : List Word} (h : Cuts text ws) :
    ∃ pieces, Tiled .standard pieces ∧ textOf pieces = text ∧ Piece.words pieces = ws := by
  induction h with
  | nil => exact ⟨[], .nil, rfl, rfl⟩
  | @blank c text ws hc _ ih =>
    obtain ⟨pieces, htiled, rfl, hws⟩ := ih
    cases htiled with
    | nil => exact ⟨[.gap [c]], .cons nofun (.blanks nofun (by simpa using hc) nofun) .nil, rfl, hws⟩
    | @cons piece pieces hne hfits htiled =>
      rcases stops_of_fits hfits with ⟨blanks, rfl, hall⟩ | hstop
      · -- the blank joins those that follow
        cases hfits with
        | blanks _ _ hstop =>
          have hall : ∀ d ∈ c :: blanks, isBlank d = true := List.forall_mem_cons.2 ⟨hc, hall⟩
          exact ⟨.gap (c :: blanks) :: pieces, .cons nofun (.blanks nofun hall hstop) htiled, rfl, hws⟩
        | comment => exact absurd (hall '/' (List.mem_cons_self ..)) (by decide)
      · have hblank : Fits .standard (.gap [c]) (textOf (piece :: pieces)) :=
          .blanks nofun (by simpa using hc) hstop
        exact ⟨.gap [c] :: piece :: pieces, .cons nofun hblank (.cons hne hfits htiled), rfl, hws⟩
  | @comment text after ws hall hstop _ ih =>
    obtain ⟨pieces, htiled, rfl, hws⟩ := ih
    exact ⟨.gap ('/' :: '/' :: text) :: pieces, .cons nofun (.comment hall hstop) htiled, rfl, hws⟩
  | @lexeme kind value text after ws hfits _ ih =>
    obtain ⟨pieces, htiled, rfl, hws⟩ := ih
    have hne : text ≠ [] := by
      cases hfits with
      | number hnumeral =>
        obtain ⟨c, rest, rfl, -⟩ := isDigit_of_isNumeral hnumeral
        exact nofun
      | _ => exact nofun
    exact ⟨.lexeme kind value text :: pieces, .cons hne hfits htiled, rfl,
      congrArg ((kind, value) :: ·) hws⟩

theorem tokensOf_of_cuts {script : String} {ws : List Word} (h : Cuts script.toList ws) :
    ∃ tokens, tokensOf .standard script = .ok tokens ∧
      tokens.map Token.word = ws ++ [Word.ending] := by
  obtain ⟨pieces, htiled, htext, hws⟩ := tiled_of_cuts h
  refine ⟨_, tokensOf_of_tiled htiled htext, ?_⟩
  rw [List.map_append, map_word_tokensBehind, hws]
  rfl

/-! ## Texts that yield words -/

/-- A text is cut into these words, in front of any text that does not start with a character of the
class. -/
def Yields (p : Char → Bool) (text : String) (ws : List Word) : Prop :=
  ∀ after vs, Stops p after → Cuts after vs → Cuts (text.toList ++ after) (ws ++ vs)

abbrev Closed (text : String) (ws : List Word) : Prop := Yields (fun _ => false) text ws

def startsOutside (p : Char → Bool) (text : String) : Bool :=
  match text.toList with
  | [] => false
  | c :: _ => !p c

theorem stops_of_startsOutside {p : Char → Bool} {text : String} (h : startsOutside p text = true)
    (after : List Char) : Stops p (text.toList ++ after) := by
  unfold startsOutside at h
  split at h
  · cases h
  · rename_i c rest heq
    rw [heq]
    rintro _ ⟨⟩
    simpa using h

namespace Yields

variable {p q : Char → Bool} {text more : String} {ws vs : List Word}

theorem cuts (h : Yields p text ws) : Cuts text.toList ws := by
  have := h [] [] nofun .nil
  rwa [List.append_nil, List.append_nil] at this

theorem loosen (h : Yields p text ws) (hpq : ∀ c, p c = true → q c = true) : Yields q text ws :=
  fun after us hstop => h after us (hstop.imp hpq)

theorem cast {us : List Word} (h : Yields p text ws) (hw : ws = us) : Yields p text us := hw ▸ h

theorem append (h : Yields p text ws) (h' : Yields q more vs)
    (hs : ∀ after, Stops q after → Stops p (more.toList ++ after)) :
    Yields q (text ++ more) (ws ++ vs) := by
  intro after us hstop hafter
  rw [String.toList_append, List.append_assoc, List.append_assoc]
  exact h _ _ (hs after hstop) (h' after us hstop hafter)

theorem follow (h : Yields p text ws) (h' : Yields q more vs) (hs : startsOutside p more = true) :
    Yields q (text ++ more) (ws ++ vs) :=
  h.append h' fun after _ => stops_of_startsOutside hs after

theorem join (h : Closed text ws) (h' : Yields q more vs) : Yields q (text ++ more) (ws ++ vs) :=
  h.append h' fun _ _ _ _ => rfl

end Yields

/-! ## Words and blanks -/

theorem yields_nothing : Closed "" [] := fun _ _ _ h => h

theorem fits_name {text : String} {after : List Char} (h : Word.Spelled (.name, text))
    (hstop : Stops isNameChar after) : Fits .standard (.lexeme .name text text.toList) after := by
  obtain ⟨c, rest, htext, hc, hrest⟩ := h
  have hfits : Fits .standard (word .name (c :: rest)) after := .name hc hrest hstop
  rwa [word, ← htext, String.ofList_toList] at hfits

theorem yields_name {text : String} (h : Word.Spelled (.name, text)) :
    Yields isNameChar text [(.name, text)] :=
  fun _ _ hstop hafter => .lexeme (fits_name h hstop) hafter

def isWord (text : String) : Bool :=
  match text.toList with
  | [] => false
  | c :: rest => isNameStart c && rest.all isNameChar

theorem spelled_of_isWord {text : String} (h : isWord text = true) : Word.Spelled (.name, text) := by
  unfold isWord at h
  split at h
  · cases h
  · rename_i c rest htext
    obtain ⟨hc, hrest⟩ := Bool.and_eq_true_iff.1 h
    exact ⟨c, rest, htext, hc, List.all_eq_true.1 hrest⟩

theorem yields_keyword (text : String) (h : isWord text = true) :
    Yields isNameChar text [(.name, text)] := yields_name (spelled_of_isWord h)

theorem yields_number {text : String} (h : IsNumeral text.toList) :
    Yields continuesNumeral text [(.number, text)] := by
  intro after vs hstop hafter
  have hfits : Fits .standard (word .number text.toList) after := .number h hstop
  rw [word, String.ofList_toList] at hfits
  exact .lexeme hfits hafter

def isOther (c : Char) : Bool := !(isBlank c || isNameChar c || c == '"' || c == '\'')

theorem startsOperator_of_isOther {c : Char} (h : isOther c = true) : startsOperator c := by
  simp only [isOther, Bool.not_eq_true', Bool.or_eq_false_iff, beq_eq_false_iff_ne] at h
  obtain ⟨⟨⟨hblank, hname⟩, hdouble⟩, hsingle⟩ := h
  refine ⟨hblank, ?_, ?_, hdouble, hsingle⟩
  · exact Bool.eq_false_iff.2 fun hc => by simp [isNameChar_of_isNameStart hc] at hname
  · exact Bool.eq_false_iff.2 fun hc => by simp [isDigit_isNameChar _ hc] at hname

def isJoined (id : String) : Bool :=
  match id.toList with
  | [] => false
  | c :: rest => isOther c && OperatorChars.standard.first.contains c &&
      rest.all OperatorChars.standard.further.contains && rest.head? != some '/'

/-- The characters that would go on with an operator, or make it a comment. -/
def continuesOperator (c : Char) : Bool :=
  OperatorChars.standard.further.contains c || c == '/'

theorem fits_operator {id : String} {after : List Char} (h : isJoined id = true)
    (hstop : Stops continuesOperator after) :
    Fits .standard (.lexeme .operator id id.toList) after := by
  unfold isJoined at h
  split at h
  · cases h
  · rename_i c rest htext
    simp only [Bool.and_eq_true, List.all_eq_true, bne_iff_ne] at h
    obtain ⟨⟨⟨hother, hfirst⟩, hall⟩, hhead⟩ := h
    have hfurther := hstop.imp (q := OperatorChars.standard.further.contains) fun d hd => by
      rw [continuesOperator, hd, Bool.true_or]
    have hslash : (rest ++ after).head? ≠ some '/' := by
      cases rest with
      | nil => exact fun hd => absurd (hstop '/' hd) (by decide)
      | cons d rest => exact hhead
    have hfits : Fits .standard (word .operator (c :: rest)) after :=
      .operator (startsOperator_of_isOther hother) hfirst hall hfurther fun _ => hslash
    rwa [word, ← htext, String.ofList_toList] at hfits

theorem yields_operator (id : String) (h : isJoined id = true) :
    Yields continuesOperator id [(.operator, id)] :=
  fun _ _ hstop hafter => .lexeme (fits_operator h hstop) hafter

def isSign (c : Char) : Bool :=
  isOther c && !isControl c && !OperatorChars.standard.first.contains c

def signsOf? (text : String) : Option (List String) :=
  if text.toList.all fun c => isBlank c || isSign c then
    some ((text.toList.filter isSign).map fun c => String.ofList [c])
  else none

theorem fits_sign {c : Char} (h : isSign c = true) (after : List Char) :
    Fits .standard (word .operator [c]) after := by
  simp only [isSign, Bool.and_eq_true, Bool.not_eq_true'] at h
  obtain ⟨⟨hother, hcontrol⟩, hfirst⟩ := h
  refine .single (startsOperator_of_isOther hother) hfirst hcontrol ?_
  rintro rfl
  exact absurd hfirst (by decide)

theorem cuts_signs {text after : List Char} {vs : List Word}
    (h : ∀ c ∈ text, isBlank c = true ∨ isSign c = true) (hafter : Cuts after vs) :
    Cuts (text ++ after)
      ((text.filter isSign).map (fun c => (.operator, String.ofList [c])) ++ vs) := by
  induction text with
  | nil => exact hafter
  | cons c text ih =>
    obtain ⟨hc, hrest⟩ := List.forall_mem_cons.1 h
    by_cases hsign : isSign c = true
    · rw [List.filter_cons_of_pos hsign]
      have hcuts := Cuts.lexeme (fits_sign hsign (text ++ after)) (ih hrest)
      exact hcuts
    · rw [List.filter_cons_of_neg hsign]
      exact .blank (hc.resolve_right hsign) (ih hrest)

theorem closed_signs (text : String) (ids : List String)
    (h : signsOf? text = some ids) : Closed text (ids.map (.operator, ·)) := by
  unfold signsOf? at h
  split at h
  · rename_i hall
    cases h
    intro after vs _ hafter
    rw [List.map_map]
    refine cuts_signs (fun c hc => ?_) hafter
    simpa using List.all_eq_true.1 hall c hc
  · cases h

namespace Yields

variable {p q : Char → Bool} {text : String} {ws : List Word}

theorem sign (h : Yields p text ws) (more : String) (ids : List String)
    (hids : signsOf? more = some ids)
    (hs : startsOutside p more = true) :
    Closed (text ++ more) (ws ++ ids.map (.operator, ·)) :=
  h.follow (closed_signs more ids hids) hs

end Yields

/-! ## String literals -/

namespace StringLiteral

theorem codePoint?_fourDigits {c : Char} (h : isControl c = true) :
    ∃ h₁ h₂ h₃ h₄, fourDigits c.toNat = [h₁, h₂, h₃, h₄] ∧ codePoint? h₁ h₂ h₃ h₄ = some c := by
  have hall : ∀ n < 160, fourDigits n = (List.range 4).map ((fourDigits n).getD · '0') ∧
      codePoint? ((fourDigits n).getD 0 '0') ((fourDigits n).getD 1 '0')
        ((fourDigits n).getD 2 '0') ((fourDigits n).getD 3 '0') = some (Char.ofNat n) := by
    decide +kernel
  have hlt : c.toNat < 160 := by
    simp only [isControl, Bool.or_eq_true, Bool.and_eq_true, decide_eq_true_eq] at h
    omega
  obtain ⟨hdigits, hc⟩ := hall c.toNat hlt
  rw [Char.ofNat_toNat] at hc
  exact ⟨_, _, _, _, hdigits, hc⟩

theorem denotes_writeChar (c : Char) {text value : List Char} (h : Denotes '"' text value) :
    Denotes '"' (writeChar c ++ text) (c :: value) := by
  unfold writeChar
  by_cases hquote : c = '"'
  · subst hquote
    exact .escape (by decide) rfl h
  by_cases hslash : c = '\\'
  · subst hslash
    exact .escape (by decide) rfl h
  by_cases hline : c = '\n'
  · subst hline
    exact .escape (by decide) rfl h
  by_cases hreturn : c = '\r'
  · subst hreturn
    exact .escape (by decide) rfl h
  by_cases htab : c = '\t'
  · subst htab
    exact .escape (by decide) rfl h
  by_cases hzero : c = '\x00'
  · subst hzero
    exact .escape (by decide) rfl h
  rw [if_neg hquote, if_neg hslash, if_neg hline, if_neg hreturn, if_neg htab, if_neg hzero]
  by_cases hcontrol : isControl c = true
  · obtain ⟨h₁, h₂, h₃, h₄, hdigits, hc⟩ := codePoint?_fourDigits hcontrol
    rw [if_pos hcontrol, hdigits]
    exact .unicode hc h
  · rw [if_neg hcontrol]
    exact .plain hquote hline hreturn hslash h

theorem denotes_write (value : List Char) : Denotes '"' (value.flatMap writeChar) value := by
  induction value with
  | nil => exact .nil
  | cons c value ih => exact denotes_writeChar c ih

end StringLiteral

theorem fits_string {chars : OperatorChars} (text : String) (after : List Char) :
    Fits chars (.lexeme .string text (StringLiteral.write text).toList) after := by
  have hfits : Fits chars (.lexeme .string (String.ofList text.toList)
      ('"' :: (text.toList.flatMap StringLiteral.writeChar ++ ['"']))) after :=
    .string (.inl rfl) (StringLiteral.denotes_write text.toList)
  rwa [String.ofList_toList, ← String.toList_ofList (l := '"' :: _)] at hfits

theorem closed_string (text : String) : Closed (StringLiteral.write text) [(.string, text)] :=
  fun _ _ _ hafter => .lexeme (fits_string text _) hafter

end ScriptTree
