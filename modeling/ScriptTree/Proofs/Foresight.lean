import ScriptTree.Proofs.Halting
import ScriptTree.Proofs.Steps

/-!
# No step looks ahead

A parser knows of the tokens behind the current one only that there are some. So two parses of
scripts that begin alike run alike, until one of them has read all that is common to them and takes
one token more: an error by then is an error of both (`error_foreseen`).
-/

namespace ScriptTree

open Parse Actions

structure Parser.Alike (rest other : List Token) (p q : Parser) : Prop where
  current : q.current = p.current
  scopes : q.scopes = p.scopes
  unread : ∃ near, p.unread = near ++ rest ∧ q.unread = near ++ other

/-- The first run has gone beyond the tokens that are common to both, or else both came to the same. -/
def Agree {α : Type} (rest other : List Token) (run run' : Except SyntaxError α × Parser) : Prop :=
  run.2.unread.length < rest.length ∨ run'.1 = run.1 ∧ run.2.Alike rest other run'.2

/-! ## One run -/

section
variable {table : SymbolTable} {α : Type}

theorem suffix_of_moveOn (p : Parser) : (moveOn table p).2.unread <:+ p.unread := by
  unfold moveOn
  split
  · exact List.suffix_refl _
  · rename_i token rest hu
    rw [hu]
    split <;> exact List.suffix_cons token rest

theorem suffix_of_changeScopes (change : ScopeChain → Except SyntaxError ScopeChain) (p : Parser) :
    (changeScopes change p).2.unread <:+ p.unread := by
  unfold changeScopes
  split <;> exact List.suffix_refl _

theorem suffix_bind {β : Type} {x : Parse α} {f : α → Parse β} {p : Parser}
    (hx : (x p).2.unread <:+ p.unread) (hf : ∀ a q, (f a q).2.unread <:+ q.unread) :
    ((x >>= f) p).2.unread <:+ p.unread := by
  rw [bind_apply]
  generalize x p = run at hx
  obtain ⟨result, q⟩ := run
  cases result with
  | ok a => exact (hf a q).trans hx
  | error e => exact hx

/-- A run only takes tokens from the front, also if it fails. -/
theorem Parse.Built.suffix {x : Parse α} (h : Built (standard table) x) :
    ∀ p, (x p).2.unread <:+ p.unread := by
  induction h with
  | pure | current | fail => exact fun p => List.suffix_refl _
  | bind _ _ ihx ihf => exact fun p => suffix_bind (ihx p) ihf
  | advance | label => exact suffix_of_moveOn
  | define t =>
    exact fun p => suffix_bind (suffix_of_changeScopes _ p) fun _ _ => List.suffix_refl _
  | reserve t =>
    intro p
    dsimp only [standard]
    split
    · exact suffix_of_changeScopes _ p
    · exact List.suffix_refl _
  | openScope | closeScope => exact suffix_of_changeScopes _

end

/-! ## Two runs -/

section
variable {table : SymbolTable} {rest other : List Token} {p q : Parser} {α : Type}

theorem agree_changeScopes (change : ScopeChain → Except SyntaxError ScopeChain)
    (h : p.Alike rest other q) : Agree rest other (changeScopes change p) (changeScopes change q) := by
  right
  unfold changeScopes
  rw [h.scopes]
  split
  · exact ⟨rfl, h.current, rfl, h.unread⟩
  · exact ⟨rfl, h⟩

/-- What is read next is the same, unless it is behind the common tokens. That it is not the last one
is known of both, as there are more tokens behind. -/
theorem agree_moveOn (hrest : rest ≠ []) (hother : other ≠ []) (h : p.Alike rest other q) :
    Agree rest other (moveOn table p) (moveOn table q) := by
  obtain ⟨near, hp, hq⟩ := h.unread
  cases near with
  | nil =>
    left
    obtain ⟨token, more, rfl⟩ := List.exists_cons_of_ne_nil hrest
    unfold moveOn
    rw [hp, List.nil_append]
    dsimp only
    split <;> simp
  | cons token near =>
    right
    have hlast : (near ++ rest).isEmpty = false := by simp [hrest]
    have hlast' : (near ++ other).isEmpty = false := by simp [hother]
    unfold moveOn
    rw [hp, hq, h.scopes, h.current, List.cons_append, List.cons_append]
    dsimp only
    rw [hlast, hlast']
    split <;> exact ⟨rfl, rfl, rfl, near, rfl, rfl⟩

theorem agree_bind {β : Type} {x : Parse α} {f : α → Parse β}
    (hx : Agree rest other (x p) (x q))
    (hf : ∀ a {p q}, Parser.Alike rest other p q → Agree rest other (f a p) (f a q))
    (hs : ∀ a p, (f a p).2.unread <:+ p.unread) :
    Agree rest other ((x >>= f) p) ((x >>= f) q) := by
  rw [bind_apply, bind_apply]
  generalize x p = run at hx
  generalize x q = run' at hx
  obtain ⟨result, p'⟩ := run
  obtain ⟨result', q'⟩ := run'
  obtain hfar | ⟨hr, halike⟩ := hx
  · left
    cases result with
    | ok a => exact Nat.lt_of_le_of_lt (hs a p').length_le hfar
    | error e => exact hfar
  · cases hr
    cases result with
    | ok a => exact hf a halike
    | error e => exact .inr ⟨rfl, halike⟩

theorem Parse.Built.agree (hrest : rest ≠ []) (hother : other ≠ []) {x : Parse α}
    (h : Built (standard table) x) :
    ∀ {p q}, Parser.Alike rest other p q → Agree rest other (x p) (x q) := by
  induction h with
  | pure | fail => exact fun hpq => .inr ⟨rfl, hpq⟩
  | current => exact fun hpq => .inr ⟨by rw [current_apply, current_apply, hpq.current], hpq⟩
  | bind _ hf ihx ihf => exact fun hpq => agree_bind (ihx hpq) ihf fun a => (hf a).suffix
  | advance | label => exact agree_moveOn hrest hother
  | define t =>
    intro p q hpq
    exact agree_bind (agree_changeScopes _ hpq) (fun _ _ _ h => .inr ⟨rfl, h⟩)
      fun _ _ => List.suffix_refl _
  | reserve t =>
    intro p q hpq
    dsimp only [standard]
    split
    · exact agree_changeScopes _ hpq
    · exact .inr ⟨rfl, hpq⟩
  | openScope | closeScope => exact agree_changeScopes _

end

/-! ## Whole scripts -/

def Parser.taken (tokens : List Token) (p : Parser) : Nat := tokens.length - p.unread.length

theorem alike_start (read rest other : List Token) :
    (Parser.start (read ++ rest)).Alike rest other (.start (read ++ other)) :=
  ⟨rfl, rfl, read, rfl, rfl⟩

/-- An error that is found with tokens left is the error of each script that begins with the tokens
taken by then and goes on. -/
theorem Parse.Built.error_of_taken {table : SymbolTable} {α : Type} {x : Parse α}
    (hx : Built (standard table) x) {tokens other : List Token} {e : SyntaxError} {q : Parser}
    (h : x (.start tokens) = (.error e, q)) (hleft : q.taken tokens < tokens.length)
    (hlong : q.taken tokens < other.length)
    (hsame : other.take (q.taken tokens) = tokens.take (q.taken tokens)) :
    (x (.start other)).1 = .error e := by
  have hsuffix : q.unread <:+ tokens := by
    have := hx.suffix (.start tokens)
    rwa [h] at this
  obtain ⟨read, rfl⟩ := hsuffix
  have htaken : q.taken (read ++ q.unread) = read.length := by simp [Parser.taken]
  rw [htaken] at hleft hlong hsame
  rw [List.take_left] at hsame
  have hrest : q.unread ≠ [] := by
    intro hnil
    simp [hnil] at hleft
  have hother : other.drop read.length ≠ [] := by simpa using hlong
  have hsplit : other = read ++ other.drop read.length := by
    have hdrop := List.take_append_drop read.length other
    rw [hsame] at hdrop
    exact hdrop.symm
  have hagree := hx.agree hrest hother (alike_start read _ _)
  rw [h, ← hsplit] at hagree
  obtain hfar | ⟨hr, -⟩ := hagree
  · exact absurd hfar (Nat.lt_irrefl _)
  · exact hr

/-- **Errors are decided by what has been read**: the error of a parse that has not taken all tokens is
the error of every longer script that begins with the tokens it has taken. -/
theorem error_foreseen (tokens other : List Token) (e : SyntaxError) (q : Parser) :
    let act := standard .grammar
    let foreseen := q.taken tokens < tokens.length ∧ q.taken tokens < other.length ∧
      other.take (q.taken tokens) = tokens.take (q.taken tokens)
    (Parse.script .grammar act (.start tokens) = (.error e, q) → foreseen →
      parseTokens .grammar other = .error e) ∧
    (Parse.singleExpression .grammar act (.start tokens) = (.error e, q) → foreseen →
      parseExpression .grammar other = .error e) := by
  intro act foreseen
  have hpower := SymbolTable.ends_grammar.power
  have hfront := SymbolTable.ends_grammar.prefixRule
  -- A depth that is enough for one of the scripts is not for the other, so both get the greater one.
  let depth := max (Parser.start tokens).reach (Parser.start other).reach
  have htokens : (Parser.start tokens).reach ≤ depth := Nat.le_max_left ..
  have hother : (Parser.start other).reach ≤ depth := Nat.le_max_right ..
  have hbuilt := built_nested .grammar act depth
  constructor
  · intro h hseen
    obtain ⟨hleft, hlong, hsame⟩ := hseen
    rw [← script_of_reach hpower hfront htokens] at h
    rw [parseTokens, ← script_of_reach hpower hfront hother]
    exact (built_script hbuilt).error_of_taken h hleft hlong hsame
  · intro h hseen
    obtain ⟨hleft, hlong, hsame⟩ := hseen
    rw [← singleExpression_of_reach hpower hfront htokens] at h
    rw [parseExpression, ← singleExpression_of_reach hpower hfront hother]
    exact (built_singleExpression hbuilt).error_of_taken h hleft hlong hsame

/-- A bracket too many is found when one token more has been taken. -/
theorem error_foreseen_at_bracket :
    let name : Token := ⟨.name, "x", .start⟩
    let bracket : Token := ⟨.operator, ")", .start⟩
    let tokens := [name, bracket, name]
    let other := [name, bracket, bracket, .ending .start]
    (∃ e q, Parse.script .grammar (standard .grammar) (.start tokens) = (.error e, q) ∧
      q.taken tokens = 2 ∧ parseTokens .grammar other = .error e) ∧
    ∃ e q, Parse.singleExpression .grammar (standard .grammar) (.start tokens) = (.error e, q) ∧
      q.taken tokens = 2 ∧ parseExpression .grammar other = .error e := by
  intro name bracket tokens other
  refine ⟨⟨_, _, rfl, rfl, ?_⟩, ⟨_, _, rfl, rfl, ?_⟩⟩
  · exact (error_foreseen tokens other _ _).1 rfl ⟨by decide, by decide, rfl⟩
  · exact (error_foreseen tokens other _ _).2 rfl ⟨by decide, by decide, rfl⟩

end ScriptTree
