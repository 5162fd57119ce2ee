import ScriptTree.Proofs.Mirrors

/-!
# The lookahead is up to date

A token is resolved to its symbol one step before it is read, and between the two steps scopes are
opened and closed and names get declared. Still no parser is entered, and none gives a result, while
the current symbol is another one than its token has in the scopes that are open by then. So a word
that is used as a keyword is never a variable, and only declarations collide with names.

Both facts are about failing runs as well. They are stated by a run that is watched: it raises an
alarm where one of them is broken, and it marks the errors of declarations (`script_watched`).
-/

namespace ScriptTree

/-! ## Watched runs -/

namespace Parse

variable {α : Type}

/-- The parser, with an alarm if it is entered or gives a result at a symbol that is out of date. -/
def watched (table : SymbolTable) (alarm : SyntaxError) (x : Parse α) : Parse α := fun p =>
  if p.Fresh table then
    match x p with
    | (.ok a, q) => if q.Fresh table then (.ok a, q) else (.error alarm, q)
    | (.error e, q) => (.error e, q)
  else (.error alarm, p)

end Parse

/-- The steps, with an alarm if the use of a keyword is refused, and a mark on the errors of
declarations. -/
def Actions.watched (alarm : SyntaxError) (mark : SyntaxError → SyntaxError) (act : Actions) :
    Actions :=
  { act with
    define := fun t => (act.define t).mapError mark
    reserve := fun t => (act.reserve t).mapError fun _ => alarm }

namespace Calls

variable (table : SymbolTable) (alarm : SyntaxError)

def watched (calls : Calls) : Calls where
  expression power := (calls.expression power).watched table alarm
  climb power left := (calls.climb power left).watched table alarm
  items := calls.items.watched table alarm
  entries := calls.entries.watched table alarm
  parameters := calls.parameters.watched table alarm
  declarations := calls.declarations.watched table alarm
  statement := calls.statement.watched table alarm
  statements := calls.statements.watched table alarm

def watchedNested (act : Actions) (depth : Nat) : Calls :=
  Nat.repeat (fun calls => (calls.next table act).watched table alarm) depth
    (endless.watched table alarm)

end Calls

def SyntaxError.marked (mark : SyntaxError → SyntaxError) (e : SyntaxError) : SyntaxError :=
  if e.cause.isCollision then mark e else e

/-! ## Steps that are watched -/

namespace Actions

open Parse

variable {alarm : SyntaxError} {mark : SyntaxError → SyntaxError}

theorem marked_of_not_collision {e : SyntaxError} (h : e.cause.isCollision = false) :
    e.marked mark = e := if_neg (Bool.eq_false_iff.1 h)

/-- A move ends at a symbol that is up to date, wherever it starts. -/
theorem mirrors_moveOn {pre : Parser → Prop} :
    Mirrors (SyntaxError.marked mark) pre (moveOn .grammar) (moveOn .grammar) fun _ =>
      Parser.Fresh .grammar := by
  intro p _
  refine ⟨?_, fun t q hm => Parser.fresh_of_moveOn hm⟩
  rw [mapError]
  cases hm : moveOn .grammar p with
  | mk result q =>
    cases result with
    | ok t => rfl
    | error e =>
      -- a token without a symbol is an unknown operator or an end in the middle
      have hcollision : e.cause.isCollision = false := by
        obtain ⟨token, rest, -, hc⟩ := error_of_moveOn hm
        obtain ⟨-, rfl⟩ | ⟨-, -, rfl⟩ := classify_eq_error hc
        · rfl
        · rfl
      exact congrArg (fun e => (Except.error e, q)) (marked_of_not_collision hcollision).symm

theorem mirrors_openScope : Mirrors (SyntaxError.marked mark) (Parser.Fresh .grammar)
    ((standard .grammar).watched alarm mark).openScope (standard .grammar).openScope
    fun _ => Parser.Fresh .grammar := by
  intro p hp
  refine ⟨rfl, ?_⟩
  rintro _ _ ⟨⟩
  exact hp.congr fun name => p.scopes.resolve_push .grammar name

/-- The word of a name may be known to the scope already, and that is all that can go wrong. -/
theorem mirrors_define (t : SymbolToken) {pre : Parser → Prop} :
    Mirrors (SyntaxError.marked mark) pre (((standard .grammar).watched alarm mark).define t)
      ((standard .grammar).define t) fun _ _ => True := by
  intro p _
  refine ⟨?_, fun _ _ _ => trivial⟩
  simp only [watched, standard, mapError, bind_apply, changeScopes, ScopeChain.define,
    show t.asName.form = .name t.value from rfl]
  cases p.scopes.current.lookup? t.value with
  | none => rfl
  | some known =>
    obtain ⟨node, isReserved⟩ := known
    cases isReserved <;> rfl

theorem mirrors_reserve (t : SymbolToken) :
    Mirrors (SyntaxError.marked mark)
      (fun p => p.Fresh .grammar ∧ t.ReadIn p.scopes ∧ t.id ≠ nameId)
      (((standard .grammar).watched alarm mark).reserve t) ((standard .grammar).reserve t)
      fun _ => Parser.Fresh .grammar := by
  rintro p ⟨hfresh, hread, hid⟩
  obtain ⟨scopes, hs, hscopes⟩ := reserve_of_readIn hread hid
  have hsame : ∀ name, scopes.resolve .grammar name = p.scopes.resolve .grammar name := by
    obtain rfl | ⟨hnone, rfl⟩ := hscopes
    · exact fun _ => rfl
    · exact ScopeChain.resolve_insert hnone
  refine ⟨?_, ?_⟩
  · simp only [watched, mapError, hs]
    rfl
  · rw [hs]
    rintro _ _ ⟨⟩
    exact hfresh.congr hsame

end Actions

def Mirror.watched (alarm : SyntaxError) (mark : SyntaxError → SyntaxError) : Mirror where
  act := (Actions.standard .grammar).watched alarm mark
  change := SyntaxError.marked mark
  settled := Parser.Fresh .grammar
  loose _ := True
  plain := Actions.marked_of_not_collision
  fresh := id
  loosen _ := trivial
  advance := Actions.mirrors_moveOn
  label := Actions.mirrors_moveOn
  define t := Actions.mirrors_define t
  reserve t := Actions.mirrors_reserve t
  openScope := Actions.mirrors_openScope
  closeScope _ _ := ⟨rfl, fun _ _ _ => trivial⟩

section
open Parse

variable {alarm : SyntaxError} {mark : SyntaxError → SyntaxError}

/-- A watched parser raises no alarm if it keeps the symbol up to date. -/
theorem Mirror.Shows.watched {α : Type} {x y : Parse α} (h : (Mirror.watched alarm mark).Shows x y) :
    (Mirror.watched alarm mark).Shows (x.watched .grammar alarm) y := by
  intro p hp
  obtain ⟨hx, hpost⟩ := h p hp
  refine ⟨?_, hpost⟩
  rw [Parse.watched, if_pos (show p.Fresh .grammar from hp), hx, mapError]
  cases hy : y p with
  | mk result q =>
    cases result with
    | error e => rfl
    | ok a => exact if_pos (hpost a q hy)

theorem Calls.Mirrored.watched {image calls : Calls}
    (hc : image.Mirrored (.watched alarm mark) calls) :
    (image.watched .grammar alarm).Mirrored (.watched alarm mark) calls where
  expression power := (hc.expression power).watched
  climb power left := (hc.climb power left).watched
  items := hc.items.watched
  entries := hc.entries.watched
  parameters := hc.parameters.watched
  declarations := hc.declarations.watched
  statement := hc.statement.watched
  statements := hc.statements.watched

variable (alarm mark) in
theorem mirrored_watchedNested : ∀ depth,
    (Calls.watchedNested .grammar alarm ((Actions.standard .grammar).watched alarm mark) depth).Mirrored
      (.watched alarm mark) (Calls.nested .grammar (.standard .grammar) depth)
  | 0 => (Calls.mirrored_endless _).watched
  | depth + 1 => (mirrored_watchedNested depth).next.watched

end

/-! ## Whole runs -/

namespace Parse

variable (alarm : SyntaxError) (mark : SyntaxError → SyntaxError)

def withWatched {α : Type} (select : Calls → Parse α) : Parse α := fun p =>
  select (.watchedNested .grammar alarm ((Actions.standard .grammar).watched alarm mark) p.reach) p

def watchedScript : Parse Statements :=
  withWatched alarm mark (·.script ((Actions.standard .grammar).watched alarm mark))

def watchedExpression : Parse Node :=
  withWatched alarm mark (·.singleExpression ((Actions.standard .grammar).watched alarm mark))

theorem withWatched_eq {α : Type} {select plain : Calls → Parse α} {post : α → Parser → Prop}
    (h : ∀ {calls image : Calls}, image.Mirrored (.watched alarm mark) calls →
      Mirrors (SyntaxError.marked mark) (fun _ => True) (select image) (plain calls) post)
    (p : Parser) :
    withWatched alarm mark select p =
      (withCalls .grammar (.standard .grammar) plain).mapError (SyntaxError.marked mark) p := by
  rw [withWatched, (h (mirrored_watchedNested alarm mark p.reach) p trivial).1, mapError, mapError, withCalls]

end Parse

/-- **The lookahead is never stale, and keywords can be used.** Watching a parse changes nothing about
it, whatever the alarm is: neither its result nor its state at the end, be it a failure. But where a
name is known to its scope already, the error has the mark, so it is one of a declaration. -/
theorem script_watched (alarm : SyntaxError) (mark : SyntaxError → SyntaxError)
    (tokens : List Token) :
    Parse.watchedScript alarm mark (.start tokens) =
        (Parse.script .grammar (.standard .grammar)).mapError (SyntaxError.marked mark)
          (.start tokens) ∧
      Parse.watchedExpression alarm mark (.start tokens) =
        (Parse.singleExpression .grammar (.standard .grammar)).mapError (SyntaxError.marked mark)
          (.start tokens) :=
  ⟨Parse.withWatched_eq alarm mark (fun hc => mirrors_script hc) (.start tokens),
    Parse.withWatched_eq alarm mark (fun hc => mirrors_singleExpression hc) (.start tokens)⟩

end ScriptTree
