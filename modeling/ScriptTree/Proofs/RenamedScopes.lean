import Mathlib.Data.List.Forall2
import ScriptTree.Proofs.ScopeRuns
import ScriptTree.Proofs.Words

/-!
# Scopes with other names

A chain of scopes tells names apart and knows which of them are keywords; neither their spelling nor
their places matter to it. Two chains that know the same names, but for a map that tells names apart
and leaves the words of the symbol table alone, read all words alike and take the same declarations.
-/

namespace ScriptTree

/-- A map of words that tells them apart and leaves those of the table alone. -/
structure SymbolTable.Spares (table : SymbolTable) (f : String → String) : Prop where
  injective : Function.Injective f
  word {name : String} : table.contains name = true → f name = name

theorem SymbolTable.spares_id (table : SymbolTable) : table.Spares id :=
  ⟨Function.injective_id, fun _ => rfl⟩

theorem SymbolTable.Spares.contains {table : SymbolTable} {f : String → String}
    (h : table.Spares f) (name : String) : table.contains (f name) = table.contains name := by
  by_cases hn : table.contains name = true
  · rw [h.word hn]
  · by_cases hf : table.contains (f name) = true
    · exact absurd (h.injective (h.word hf) ▸ hf) hn
    · simp [hn, hf]

def Word.rename (f : String → String) : Word → Word
  | (.name, text) => (.name, f text)
  | word => word

theorem Word.rename_id (w : Word) : w.rename id = w := by
  obtain ⟨kind, text⟩ := w
  cases kind <;> rfl

/-! ## Names that a chain knows -/

def Scope.marks (scope : Scope) : List (String × Bool) :=
  scope.definitions.map fun known => (known.1, known.2.isReserved)

theorem Scope.lookup_marks (scope : Scope) (name : String) :
    scope.marks.lookup name = (scope.lookup? name).map (·.isReserved) := by
  obtain ⟨definitions⟩ := scope
  unfold marks lookup?
  induction definitions with
  | nil => rfl
  | cons known rest ih =>
    rw [List.map_cons, List.lookup_cons, List.lookup_cons, ih]
    cases name == known.1 <;> rfl

def Scope.Renames (f : String → String) (scope other : Scope) : Prop :=
  other.marks = scope.marks.map (Prod.map f id)

theorem lookup_map_fst {f : String → String} (hf : Function.Injective f) (name : String)
    (marks : List (String × Bool)) :
    (marks.map (Prod.map f id)).lookup (f name) = marks.lookup name := by
  induction marks with
  | nil => rfl
  | cons mark rest ih =>
    have hname : (f name == f mark.1) = (name == mark.1) := by
      by_cases h : name = mark.1 <;> simp [h, hf.eq_iff]
    rw [List.map_cons, List.lookup_cons, List.lookup_cons, ih, Prod.map_fst, hname]
    rfl

theorem Scope.Renames.lookup {f : String → String} {scope other : Scope}
    (h : scope.Renames f other) (hf : Function.Injective f) (name : String) :
    (other.lookup? (f name)).map (·.isReserved) = (scope.lookup? name).map (·.isReserved) := by
  rw [← lookup_marks, ← lookup_marks, show _ = _ from h, lookup_map_fst hf]

theorem findSome?_renamed {f : String → String} (hf : Function.Injective f) (name : String)
    {scopes others : List Scope} (h : List.Forall₂ (Scope.Renames f) scopes others) :
    others.findSome? (fun scope => (scope.lookup? (f name)).map (·.isReserved)) =
      scopes.findSome? fun scope => (scope.lookup? name).map (·.isReserved) := by
  induction h with
  | nil => rfl
  | cons hscope _ ih => rw [List.findSome?_cons, List.findSome?_cons, ih, hscope.lookup hf]

namespace ScopeChain

def Renames (f : String → String) (c d : ScopeChain) : Prop :=
  List.Forall₂ (Scope.Renames f) c.toList d.toList

theorem renames_empty (f : String → String) : empty.Renames f empty := .cons rfl .nil

namespace Renames

variable {f : String → String} {c d : ScopeChain} (h : c.Renames f d)
include h

theorem current : c.current.Renames f d.current := by
  unfold Renames at h
  rw [toList_eq, toList_eq d] at h
  cases h
  assumption

theorem outer : List.Forall₂ (Scope.Renames f) c.toList.tail d.toList.tail := by
  unfold Renames at h
  rw [toList_eq, toList_eq d] at h
  cases h
  assumption

theorem insert (name : String) {known other : Definition}
    (hk : known.isReserved = other.isReserved) :
    (c.insert name known).Renames f (d.insert (f name) other) := by
  unfold Renames
  rw [toList_insert, toList_insert]
  refine .cons ?_ h.outer
  have hcurrent : d.current.marks = _ := h.current
  simp only [Scope.Renames, Scope.marks, Scope.insert, List.map_cons] at hcurrent ⊢
  rw [hcurrent, hk]
  rfl

theorem push : c.push.Renames f d.push := .cons rfl h

theorem pop : c.pop.Renames f d.pop := by
  unfold Renames
  have hlength := List.Forall₂.length_eq h
  obtain ⟨nested, global⟩ := c
  obtain ⟨nested', global'⟩ := d
  cases nested with
  | nil =>
    cases nested' with
    | nil => exact h
    | cons => simp [toList] at hlength
  | cons scope outer =>
    cases nested' with
    | nil => simp [toList] at hlength
    | cons scope' outer' => exact h.outer

/-! ## Words in renamed chains -/

section
variable (hf : Function.Injective f) (name : String)
include hf

theorem lookup : (d.lookup? (f name)).map (·.isReserved) =
    (c.lookup? name).map (·.isReserved) := by
  unfold lookup?
  rw [List.map_findSome?, List.map_findSome?]
  exact findSome?_renamed hf name h

theorem isReserved : d.isReserved (f name) = c.isReserved name := by
  have hany (e : ScopeChain) (word : String) :
      e.isReserved word = ((e.lookup? word).map (·.isReserved)).any id := by
    unfold ScopeChain.isReserved
    cases e.lookup? word <;> rfl
  rw [hany, hany, h.lookup hf]

end

theorem resolve {table : SymbolTable} (hf : table.Spares f) (name : String) :
    d.resolve table (f name) = c.resolve table name := by
  have hall (e : ScopeChain) (word : String) :
      (e.lookup? word).all (·.isReserved) = ((e.lookup? word).map (·.isReserved)).all id := by
    cases e.lookup? word <;> rfl
  unfold ScopeChain.resolve
  rw [hf.contains, hall, hall, h.lookup hf.injective]
  by_cases hn : table.contains name = true
  · rw [hf.word hn]
  · simp [hn]

end Renames

/-- Changes of two chains that give such chains again, or that fail for a name alike. -/
inductive Changed (f : String → String) (name : String) (position position' : Position) :
    Except SyntaxError ScopeChain → Except SyntaxError ScopeChain → Prop
  | ok {c d : ScopeChain} : c.Renames f d → Changed f name position position' (.ok c) (.ok d)
  | defined : Changed f name position position' (.error ⟨.alreadyDefined name, position⟩)
      (.error ⟨.alreadyDefined (f name), position'⟩)
  | reserved : Changed f name position position' (.error ⟨.alreadyReserved name, position⟩)
      (.error ⟨.alreadyReserved (f name), position'⟩)

namespace Renames

variable {f : String → String} {c d : ScopeChain} (h : c.Renames f d)
  (hf : Function.Injective f) (name : String) (position position' : Position)
include h hf

theorem define : Changed f name position position' (c.define (.ofName name position))
    (d.define (.ofName (f name) position')) := by
  have hknown := h.current.lookup hf name
  simp only [ScopeChain.define, Node.ofName, Node.ofForm, Node.form]
  cases hc : c.current.lookup? name with
  | none =>
    rw [hc] at hknown
    rw [Option.map_eq_none_iff.1 hknown]
    exact .ok (h.insert name rfl)
  | some known =>
    rw [hc] at hknown
    obtain ⟨other, hd, hsame⟩ := Option.map_eq_some_iff.1 hknown
    rw [hd]
    dsimp only
    rw [hsame]
    by_cases hr : known.isReserved = true
    · rw [if_pos hr, if_pos hr]
      exact .reserved
    · rw [if_neg hr, if_neg hr]
      exact .defined

theorem reserve : Changed f name position position' (c.reserve (.ofName name position))
    (d.reserve (.ofName (f name) position')) := by
  have hknown := congrArg Option.isSome (h.current.lookup hf name)
  rw [Option.isSome_map, Option.isSome_map] at hknown
  simp only [ScopeChain.reserve, Node.ofName, Node.ofForm, Node.form]
  rw [h.isReserved hf, hknown]
  by_cases hr : c.isReserved name = true
  · rw [if_pos hr, if_pos hr]
    exact .ok h
  · rw [if_neg hr, if_neg hr]
    by_cases hk : (c.current.lookup? name).isSome = true
    · rw [if_pos hk, if_pos hk]
      exact .defined
    · rw [if_neg hk, if_neg hk]
      exact .ok (h.insert name rfl)

end Renames

end ScopeChain

/-- What a token is read as depends on its word alone, and not on how a name is spelled. -/
theorem classify_of_renames {table : SymbolTable} {f : String → String} (hf : table.Spares f)
    {c d : ScopeChain} (h : c.Renames f d) (isLast : Bool) {token other : Token}
    (hword : other.word = token.word.rename f) :
    classify table d isLast other =
      (classify table c isLast token).mapError fun e => ⟨e.cause, other.position⟩ := by
  obtain ⟨kind, value, position⟩ := token
  obtain ⟨kind', value', position'⟩ := other
  cases kind with
  | name =>
    cases hword
    exact congrArg Except.ok (h.resolve hf value)
  | operator =>
    cases hword
    unfold classify
    dsimp only
    split <;> rfl
  | string | number =>
    cases hword
    rfl
  | ending =>
    cases hword
    cases isLast <;> rfl

end ScriptTree
