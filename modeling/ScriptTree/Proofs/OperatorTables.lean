import Mathlib.Data.List.Nodup
import ScriptTree.Proofs.Bare
import ScriptTree.Proofs.Halting
import ScriptTree.Proofs.Registrations

/-!
# Operators of any table

The climb does not depend on the operators of the language. With any table of names and operators, of
whatever powers and groupings, operators between names are read as the one tree of them in which each
operator binds as it should (`parseExpression_joins`).

There is such a tree, since one more operator and its operand can always be put at its right edge
(`exists_graft`). The climb finds each such tree: below an operator it reads what binds tighter than the
threshold of that operator, and the thresholds only rise along the right edge of a tree
(`reads_of_joins`). So there is only one.
-/

namespace ScriptTree

/-! ## Tables of operators -/

structure Operator where
  id : String
  power : BindingPower
  groupsRight : Bool
deriving DecidableEq

namespace Operator

def rule (o : Operator) : InfixRule := if o.groupsRight then .binaryRight else .binary

def attach (table : SymbolTable) (o : Operator) : SymbolTable :=
  if o.groupsRight then table.addBinaryRight o.id o.power else table.addBinary o.id o.power

def symbol (o : Operator) : Symbol where
  id := o.id
  power := o.power
  infixRule? := some o.rule
  infixPower := o.power

def threshold (o : Operator) : BindingPower := if o.groupsRight then o.power.weaker else o.power

def TakesRight (o inner : Operator) : Prop :=
  if o.groupsRight then o.power ≤ inner.power else o.power < inner.power

def TakesLeft (o inner : Operator) : Prop :=
  if inner.groupsRight then o.power < inner.power else o.power ≤ inner.power

theorem takesRight_iff {o inner : Operator} (h : 1 ≤ o.power) :
    o.TakesRight inner ↔ o.threshold < inner.power := by
  unfold TakesRight threshold
  split
  · exact ((Nat.sub_lt_iff_lt_add h).trans Nat.lt_succ_iff).symm
  · exact Iff.rfl

theorem takesLeft_iff {o inner : Operator} (h : 1 ≤ inner.power) :
    o.TakesLeft inner ↔ o.power ≤ inner.threshold := by
  unfold TakesLeft threshold
  split
  · exact Nat.lt_iff_le_pred h
  · exact Iff.rfl

theorem threshold_le (o : Operator) : o.threshold ≤ o.power := by
  unfold threshold
  split
  · exact Nat.sub_le _ _
  · exact Nat.le_refl _

/-- What binds tighter than a threshold has no lower threshold. -/
theorem le_threshold {o : Operator} {power : BindingPower} (h : power < o.power) :
    power ≤ o.threshold := by
  unfold threshold
  split
  · exact Nat.le_sub_one_of_lt h
  · exact Nat.le_of_lt h

end Operator

/-- A table of names and of operators, some registered before names and some after them. -/
structure OperatorTable where
  before : List Operator
  after : List Operator
  nodup : ((before ++ after).map (·.id)).Nodup
  apart {o} : o ∈ before ++ after → o.id ≠ nameId ∧ o.id ≠ endId
  positive {o} : o ∈ before ++ after → 1 ≤ o.power

namespace OperatorTable

variable (t : OperatorTable)

def operators : List Operator := t.before ++ t.after

def table : SymbolTable :=
  t.after.foldl Operator.attach ((t.before.foldl Operator.attach .empty).addPrefix nameId .name)

end OperatorTable

namespace SymbolTable

variable {table : SymbolTable} {id other : String}

theorem lookup?_addPrefix (h : table.lookup? id = none) (rule : PrefixRule) :
    (table.addPrefix id rule).lookup? other =
      if other = id then some { id, prefixRule? := some rule } else table.lookup? other := by
  have hadd := lookup?_add table (.addPrefix id rule) other
  rw [Registration.id, symbol_of_none h] at hadd
  exact hadd

theorem lookup?_addInfix (h : table.lookup? id = none) (power : BindingPower) (rule : InfixRule) :
    (table.addInfix id power rule).lookup? other =
      if other = id then some { id, power, infixRule? := some rule, infixPower := power }
      else table.lookup? other := by
  have hadd := lookup?_add table (.addInfix id power rule) other
  rw [Registration.id, symbol_of_none h, Registration.change, Registration.power?, Option.getD_some,
    BindingPower.none, Nat.zero_max] at hadd
  exact hadd

theorem lookup?_attach {o : Operator} (h : table.lookup? o.id = none) :
    (o.attach table).lookup? other = if other = o.id then some o.symbol else table.lookup? other := by
  unfold Operator.attach Operator.symbol Operator.rule
  by_cases hr : o.groupsRight = true
  · simp only [hr, ite_true]
    exact lookup?_addInfix h _ _
  · simp only [hr]
    exact lookup?_addInfix h _ _

end SymbolTable

theorem Operator.find?_of_mem {operators : List Operator} (hn : (operators.map (·.id)).Nodup)
    {o : Operator} (h : o ∈ operators) : operators.find? (·.id == o.id) = some o := by
  cases hf : operators.find? (·.id == o.id) with
  | none => exact absurd (List.find?_eq_none.1 hf o h) (by simp)
  | some other =>
    have hid : other.id = o.id := eq_of_beq (List.find?_some hf :)
    exact congrArg some (List.inj_on_of_nodup_map hn (List.mem_of_find?_eq_some hf) h hid)

theorem Operator.find?_eq_none {operators : List Operator} {id : String}
    (h : ∀ o ∈ operators, o.id ≠ id) : operators.find? (·.id == id) = none :=
  List.find?_eq_none.2 fun o hm => by simpa using h o hm

theorem SymbolTable.lookup?_foldl {operators : List Operator} (hn : (operators.map (·.id)).Nodup)
    {table : SymbolTable} (hnew : ∀ o ∈ operators, table.lookup? o.id = none) (id : String) :
    (operators.foldl Operator.attach table).lookup? id =
      ((operators.find? (·.id == id)).map Operator.symbol).or (table.lookup? id) := by
  induction operators generalizing table with
  | nil => rfl
  | cons o rest ih =>
    obtain ⟨ho, hn⟩ := List.nodup_cons.1 hn
    have hne : ∀ other ∈ rest, other.id ≠ o.id := fun other hm he =>
      ho (List.mem_map.2 ⟨other, hm, he⟩)
    have hattach (other : String) : (o.attach table).lookup? other =
        if other = o.id then some o.symbol else table.lookup? other :=
      lookup?_attach (hnew o (.head _))
    rw [List.foldl_cons, ih hn fun other hm => ?_, hattach, List.find?_cons]
    · by_cases h : id = o.id
      · subst h
        simp [Operator.find?_eq_none hne]
      · rw [if_neg h, beq_eq_false_iff_ne.2 (Ne.symm h)]
    · rw [hattach, if_neg (hne other hm)]
      exact hnew other (.tail _ hm)

namespace OperatorTable

variable {t : OperatorTable} {o : Operator} {id : String}

theorem nodup_before (t : OperatorTable) : (t.before.map (·.id)).Nodup := by
  have hn := t.nodup
  rw [List.map_append] at hn
  exact (List.nodup_append.1 hn).1

theorem nodup_after (t : OperatorTable) : (t.after.map (·.id)).Nodup := by
  have hn := t.nodup
  rw [List.map_append] at hn
  exact (List.nodup_append.1 hn).2.1

theorem id_ne {other : Operator} (h : o ∈ t.before) (h' : other ∈ t.after) : o.id ≠ other.id := by
  have hn := t.nodup
  rw [List.map_append] at hn
  exact (List.nodup_append.1 hn).2.2 _ (List.mem_map_of_mem h) _ (List.mem_map_of_mem h')

theorem lookup?_table (t : OperatorTable) (id : String) : t.table.lookup? id =
    ((t.after.find? (·.id == id)).map Operator.symbol).or
      (if id = nameId then some { id := nameId, prefixRule? := some .name }
      else (t.before.find? (·.id == id)).map Operator.symbol) := by
  have hbefore (id : String) : (t.before.foldl Operator.attach .empty).lookup? id =
      (t.before.find? (·.id == id)).map Operator.symbol := by
    rw [SymbolTable.lookup?_foldl t.nodup_before fun _ _ => rfl]
    exact Option.or_none
  have hname : (t.before.foldl Operator.attach .empty).lookup? nameId = none := by
    rw [hbefore, Operator.find?_eq_none fun o hm => (t.apart (List.mem_append_left _ hm)).1]
    rfl
  rw [table, SymbolTable.lookup?_foldl t.nodup_after, SymbolTable.lookup?_addPrefix hname, hbefore]
  intro o hm
  rw [SymbolTable.lookup?_addPrefix hname, if_neg (t.apart (List.mem_append_right _ hm)).1, hbefore,
    Operator.find?_eq_none fun other hother => id_ne hother hm]
  rfl

theorem lookup?_name (t : OperatorTable) :
    t.table.lookup? nameId = some { id := nameId, prefixRule? := some .name } := by
  rw [lookup?_table, Operator.find?_eq_none fun o hm => (t.apart (List.mem_append_right _ hm)).1]
  rfl

theorem lookup?_operator (h : o ∈ t.operators) : t.table.lookup? o.id = some o.symbol := by
  rw [lookup?_table]
  rcases List.mem_append.1 h with hm | hm
  · rw [Operator.find?_eq_none fun other hother => (id_ne hm hother).symm, if_neg (t.apart h).1,
      Operator.find?_of_mem t.nodup_before hm]
    rfl
  · rw [Operator.find?_of_mem t.nodup_after hm]
    rfl

theorem lookup?_eq_none (hname : id ≠ nameId) (h : ∀ o ∈ t.operators, o.id ≠ id) :
    t.table.lookup? id = none := by
  rw [lookup?_table, if_neg hname,
    Operator.find?_eq_none fun o hm => h o (List.mem_append_left _ hm),
    Operator.find?_eq_none fun o hm => h o (List.mem_append_right _ hm)]
  rfl

theorem power_operator (h : o ∈ t.operators) : t.table.power o.id = o.power := by
  rw [SymbolTable.power, lookup?_operator h]
  rfl

theorem lookup?_end (t : OperatorTable) : t.table.lookup? endId = none :=
  lookup?_eq_none (by decide) fun _ hm => (t.apart hm).2

theorem ends (t : OperatorTable) : t.table.Ends where
  power := by rw [SymbolTable.power, lookup?_end]; rfl
  prefixRule := by rw [lookup?_end]; rfl
  statementRule := by rw [lookup?_end]; rfl

end OperatorTable

/-! ## Trees of operators and names -/

/-- Read in order, the tree is a name, and then operators with a name behind each. -/
inductive Node.Joins : Node → Token → List (Token × Token) → Prop
  | name (first : Token) : Joins (.ofName first.value first.position) first []
  | binary {left right first before sign next after} : Joins left first before →
      Joins right next after →
      Joins (.ofForm sign.value (.binary left right) sign.position) first
        (before ++ (sign, next) :: after)

namespace OperatorTable

def operator? (t : OperatorTable) (node : Node) : Option Operator :=
  match node.form with
  | .binary .. => t.operators.find? (·.id == node.id)
  | _ => none

/-- If the node has operands that operators have made, they bind as tightly as they must. -/
structure Grouped (t : OperatorTable) (node : Node) : Prop where
  right {o left right inner} : t.operator? node = some o → node.form = .binary left right →
    t.operator? right = some inner → o.TakesRight inner
  left {o left right inner} : t.operator? node = some o → node.form = .binary left right →
    t.operator? left = some inner → o.TakesLeft inner

structure IsName (t : OperatorTable) (token : Token) : Prop where
  kind : token.kind = .name
  ne_name : token.value ≠ nameId
  ne_operator {o} : o ∈ t.operators → token.value ≠ o.id

structure IsSign (t : OperatorTable) (token : Token) (o : Operator) : Prop where
  mem : o ∈ t.operators
  value : token.value = o.id
  kind : token.kind = .operator ∨ token.kind = .name

variable {t : OperatorTable} {o : Operator} {sign first next : Token} {left right : Node}

theorem mem_of_operator? {node : Node} (h : t.operator? node = some o) : o ∈ t.operators := by
  unfold operator? at h
  split at h
  · exact List.mem_of_find?_eq_some h
  · cases h

theorem operator?_binary (h : t.IsSign sign o) :
    t.operator? (.ofForm sign.value (.binary left right) sign.position) = some o := by
  rw [h.value]
  exact Operator.find?_of_mem t.nodup h.mem

theorem everywhere_name : (Node.ofName first.value first.position).Everywhere t.Grouped :=
  (Node.everywhere_ofForm rfl).2 ⟨nofun, nofun⟩

theorem everywhere_binary (h : t.IsSign sign o) :
    (Node.ofForm sign.value (.binary left right) sign.position).Everywhere t.Grouped ↔
      (∀ inner, t.operator? right = some inner → o.TakesRight inner) ∧
      (∀ inner, t.operator? left = some inner → o.TakesLeft inner) ∧
      left.Everywhere t.Grouped ∧ right.Everywhere t.Grouped := by
  rw [Node.everywhere_iff]
  constructor
  · rintro ⟨hg, hc⟩
    exact ⟨fun inner hi => hg.right (operator?_binary h) rfl hi,
      fun inner hi => hg.left (operator?_binary h) rfl hi, hc left (.head _),
      hc right (.tail _ (.head _))⟩
  · rintro ⟨hr, hl, hleft, hright⟩
    refine ⟨⟨fun ho hf hi => ?_, fun ho hf hi => ?_⟩, ?_⟩
    · cases hf
      rw [operator?_binary h] at ho
      cases ho
      exact hr _ hi
    · cases hf
      rw [operator?_binary h] at ho
      cases ho
      exact hl _ hi
    · exact forall_mem_pair hleft hright

/-! ## There is such a tree -/

/-- One more operator and its operand can be put at the right edge of a tree. -/
theorem exists_graft (h : t.IsSign sign o) (next : Token) {tree : Node} {first : Token}
    {links : List (Token × Token)} (hj : tree.Joins first links)
    (hlinks : ∀ link ∈ links, ∃ other, t.IsSign link.1 other)
    (hg : tree.Everywhere t.Grouped) :
    ∃ grown : Node, grown.Joins first (links ++ [(sign, next)]) ∧ grown.Everywhere t.Grouped ∧
      ∀ root, t.operator? grown = some root → root = o ∨ t.operator? tree = some root := by
  induction hj with
  | name first =>
    exact ⟨_, .binary (.name first) (.name next), (everywhere_binary h).2
      ⟨nofun, nofun, everywhere_name, everywhere_name⟩, fun root hr =>
        .inl (Option.some.inj (hr.symm.trans (operator?_binary h)))⟩
  | @binary left right first before mid name after hl hr _ ihr =>
    obtain ⟨other, hmid⟩ := hlinks (mid, name) (by simp)
    obtain ⟨hright, hleft, hgl, hgr⟩ := (everywhere_binary hmid).1 hg
    by_cases hlt : other.threshold < o.power
    · -- it goes into the right operand
      obtain ⟨grown, hj, hg, hroot⟩ := ihr (fun link hm => hlinks link (by simp [hm])) hgr
      refine ⟨_, ?_, (everywhere_binary hmid).2 ⟨fun inner hi => ?_, hleft, hgl, hg⟩,
        fun root hr => .inr ?_⟩
      · rw [List.append_assoc]
        exact .binary hl hj
      · obtain rfl | hi := hroot inner hi
        · exact (Operator.takesRight_iff (t.positive hmid.mem)).2 hlt
        · exact hright inner hi
      · rw [← hr, operator?_binary hmid, operator?_binary hmid]
    · -- it takes the whole tree as its left operand
      refine ⟨_, .binary (.binary hl hr) (.name next), (everywhere_binary h).2
        ⟨nofun, fun inner hi => ?_, hg, everywhere_name⟩, fun root hr =>
          .inl (Option.some.inj (hr.symm.trans (operator?_binary h)))⟩
      rw [operator?_binary hmid] at hi
      cases hi
      exact (Operator.takesLeft_iff (t.positive hmid.mem)).2 (Nat.le_of_not_lt hlt)

theorem exists_joins_append {tree : Node} {links more : List (Token × Token)}
    (hj : tree.Joins first links) (hg : tree.Everywhere t.Grouped)
    (hlinks : ∀ link ∈ links ++ more, ∃ o, t.IsSign link.1 o) :
    ∃ grown : Node, grown.Joins first (links ++ more) ∧ grown.Everywhere t.Grouped := by
  induction more generalizing tree links with
  | nil => exact ⟨tree, (List.append_nil links).symm ▸ hj, hg⟩
  | cons link more ih =>
    obtain ⟨o, ho⟩ := hlinks link (by simp)
    obtain ⟨grown, hj, hg, -⟩ :=
      exists_graft ho link.2 hj (fun link hm => hlinks link (by simp [hm])) hg
    rw [List.append_cons] at hlinks ⊢
    exact ih hj hg hlinks

/-! ## Tokens in front of a parser -/

def Readable (t : OperatorTable) (word : Token) : Prop := t.IsName word ∨ ∃ o, t.IsSign word o

theorem classify_name (h : t.IsName first) (isLast : Bool) :
    classify t.table .empty isLast first = .ok nameId := by
  have hnone : t.table.lookup? first.value = none :=
    lookup?_eq_none h.ne_name fun o hm => (h.ne_operator hm).symm
  simp [classify, h.kind, ScopeChain.resolve, SymbolTable.contains, hnone]

theorem classify_sign (h : t.IsSign sign o) (isLast : Bool) :
    classify t.table .empty isLast sign = .ok sign.value := by
  have hsome : t.table.lookup? sign.value = some o.symbol := h.value ▸ lookup?_operator h.mem
  obtain hk | hk := h.kind
  · simp [classify, hk, SymbolTable.contains, hsome]
  · have hnone : ScopeChain.empty.lookup? sign.value = none := rfl
    simp [classify, hk, ScopeChain.resolve, SymbolTable.contains, hsome, hnone]

def IsTail (tail : List Token) : Prop := tail = [] ∨ ∃ position, tail = [.ending position]

structure Facing (t : OperatorTable) (words : List Token) (p : Parser) : Prop where
  scopes : p.scopes = .empty
  read : classify t.table .empty p.unread.isEmpty p.current.token = .ok p.current.id
  front : ∃ tail, IsTail tail ∧ p.current.token :: p.unread = words ++ tail
  readable : ∀ word ∈ words, t.Readable word

theorem facing_of_moveOn {words tail : List Token} {p : Parser} (hs : p.scopes = .empty)
    (hu : p.unread = words ++ tail) (hr : ∀ word ∈ words, t.Readable word) (ht : IsTail tail) :
    ∃ q, (Actions.standard t.table).advance p = (.ok p.current, q) ∧ t.Facing words q := by
  have hc (word : Token) (rest : List Token) (hw : words ++ tail = word :: rest) :
      ∃ id, classify t.table .empty rest.isEmpty word = .ok id := by
    cases words with
    | nil =>
      obtain rfl | ⟨position, rfl⟩ := ht
      · cases hw
      · cases hw
        exact ⟨_, rfl⟩
    | cons _ _ =>
      cases hw
      obtain hn | ⟨o, ho⟩ := hr _ (.head _)
      · exact ⟨_, classify_name hn _⟩
      · exact ⟨_, classify_sign ho _⟩
  cases hw : words ++ tail with
  | nil =>
    obtain ⟨rfl, rfl⟩ := List.append_eq_nil_iff.1 hw
    have hu : p.unread = [] := hu
    refine ⟨{ p with
      unread := [], current := ⟨endId, .ending p.finish⟩, moves := p.moves + 1 }, ?_, hs, rfl,
      ⟨[.ending p.finish], .inr ⟨_, rfl⟩, rfl⟩, hr⟩
    show Actions.moveOn t.table p = _
    unfold Actions.moveOn
    rw [hu]
  | cons word rest =>
    obtain ⟨id, hid⟩ := hc word rest hw
    exact ⟨_, moveOn_of_classify (hu.trans hw) (hs ▸ hid), hs, hid, ⟨tail, ht, hw.symm⟩, hr⟩

namespace Facing

variable {words : List Token} {p : Parser}

theorem move (h : t.Facing (first :: words) p) :
    ∃ q, (Actions.standard t.table).advance p = (.ok p.current, q) ∧ t.Facing words q := by
  obtain ⟨tail, ht, hw⟩ := h.front
  exact facing_of_moveOn h.scopes (List.cons.inj hw).2
    (fun word hm => h.readable word (.tail _ hm)) ht

theorem current_name (h : t.Facing (first :: words) p) (hn : t.IsName first) :
    p.current = ⟨nameId, first⟩ := by
  obtain ⟨tail, -, hw⟩ := h.front
  have hr := h.read
  obtain ⟨rfl, -⟩ := List.cons.inj hw
  rw [classify_name hn] at hr
  rw [Except.ok.inj hr]

theorem current_sign (h : t.Facing (sign :: words) p) (ho : t.IsSign sign o) :
    p.current = ⟨sign.value, sign⟩ := by
  obtain ⟨tail, -, hw⟩ := h.front
  have hr := h.read
  obtain ⟨rfl, -⟩ := List.cons.inj hw
  rw [classify_sign ho] at hr
  rw [Except.ok.inj hr]

theorem id_end (h : t.Facing [] p) : p.current.id = endId := by
  obtain ⟨tail, rfl | ⟨position, rfl⟩, hw⟩ := h.front
  · cases hw
  · refine classify_ending h.read ?_
    rw [(List.cons.inj hw).1]
    rfl

theorem unread_end (h : t.Facing [] p) : p.unread = [] := by
  obtain ⟨tail, rfl | ⟨position, rfl⟩, hw⟩ := h.front
  · cases hw
  · exact (List.cons.inj hw).2

end Facing

/-! ## The climb finds the tree -/

open Actions

def spread (links : List (Token × Token)) : List Token :=
  links.flatMap fun link => [link.1, link.2]

/-- **A tree is read below a power that all of it binds tighter than**, up to an operator that does not
bind tighter than the threshold at its root. -/
theorem reads_of_joins {tree : Node} {links : List (Token × Token)} (hj : tree.Joins first links)
    (hfirst : t.IsName first)
    (hlinks : ∀ link ∈ links, (∃ o, t.IsSign link.1 o) ∧ t.IsName link.2)
    (hg : tree.Everywhere t.Grouped) {power : BindingPower} {rest : List Token} {p : Parser}
    (hp : t.Facing (first :: (spread links ++ rest)) p)
    (hpower : ∀ root, t.operator? tree = some root → power < root.power)
    (hrest : ∀ q root, t.Facing rest q → t.operator? tree = some root →
      t.table.power q.current.id ≤ root.threshold) :
    ∃ q, t.Facing rest q ∧ ∀ node s,
      Reads t.table (standard t.table) (.climb power tree node) q s →
        Reads t.table (standard t.table) (.expression power node) p s := by
  induction hj generalizing power rest p with
  | name first =>
    obtain ⟨q, hm, hq⟩ := hp.move
    have hcurrent := hp.current_name hfirst
    refine ⟨q, hq, fun node s hclimb => .expression hm ?_ .name ?_⟩
    · rw [hcurrent, t.lookup?_name]
      rfl
    · rw [hcurrent]
      exact hclimb
  | @binary left right first before sign next after _ _ ihl ihr =>
    obtain ⟨⟨o, ho⟩, hnext⟩ := hlinks (sign, next) (by simp)
    obtain ⟨hright, hleft, hgl, hgr⟩ := (everywhere_binary ho).1 hg
    have hroot : t.operator? (.ofForm sign.value (.binary left right) sign.position) = some o :=
      operator?_binary ho
    have hpos := t.positive ho.mem
    -- the left operand ends at the operator
    have hbelow : ∀ root, t.operator? left = some root → o.power ≤ root.threshold :=
      fun root hr => (Operator.takesLeft_iff (t.positive (mem_of_operator? hr))).1 (hleft root hr)
    have hp : t.Facing (first :: (spread before ++ (sign :: next :: (spread after ++ rest)))) p := by
      simpa [spread] using hp
    obtain ⟨q, hq, hreadl⟩ := ihl hfirst (fun link hm => hlinks link (by simp [hm])) hgl hp
      (fun root hr => Nat.lt_of_lt_of_le (hpower o hroot)
        (Nat.le_trans (hbelow root hr) root.threshold_le))
      (fun q root hq hr => by
        rw [hq.current_sign ho, ho.value, power_operator ho.mem]
        exact hbelow root hr)
    have hcurrent := hq.current_sign ho
    obtain ⟨r, hm, hr⟩ := hq.move
    -- the right operand ends where the tree does
    have hstays : ∀ s, t.Facing rest s → t.table.power s.current.id ≤ o.threshold :=
      fun s hs => hrest s o hs hroot
    obtain ⟨s, hs, hreadr⟩ := ihr hnext (fun link hm => hlinks link (by simp [hm])) hgr hr
      (fun root hi => (Operator.takesRight_iff hpos).1 (hright root hi))
      (fun s root hs hi => Nat.le_trans (hstays s hs)
        (Operator.le_threshold ((Operator.takesRight_iff hpos).1 (hright root hi))))
    have hoperand := hreadr right s (.stay (Nat.not_lt.2 (hstays s hs)))
    have hlookup : t.table.lookup? q.current.id = some o.symbol := by
      rw [hcurrent, ho.value, lookup?_operator ho.mem]
    have hop : Reads t.table (standard t.table)
        (.operation o.rule q.current left o.power (q.current.node (.binary left right))) r s := by
      unfold Operator.rule
      unfold Operator.threshold at hoperand
      split
      · rw [if_pos ‹_›] at hoperand
        exact .binaryRight hoperand
      · rw [if_neg ‹_›] at hoperand
        exact .binary hoperand
    refine ⟨s, hs, fun node s hclimb => hreadl node s (.climb ?_ hm hlookup rfl hop ?_)⟩
    · rw [hcurrent, ho.value, power_operator ho.mem]
      exact hpower o hroot
    · rw [hcurrent]
      exact hclimb

theorem parseExpression_of_joins {tree : Node} {links : List (Token × Token)} {tail : List Token}
    (hj : tree.Joins first links) (hfirst : t.IsName first)
    (hlinks : ∀ link ∈ links, (∃ o, t.IsSign link.1 o) ∧ t.IsName link.2) (htail : IsTail tail)
    (hg : tree.Everywhere t.Grouped) :
    parseExpression t.table (first :: (spread links ++ tail)) = .ok tree := by
  have hreadable : ∀ word ∈ first :: spread links, t.Readable word := by
    refine List.forall_mem_cons.2 ⟨.inl hfirst, fun word hm => ?_⟩
    obtain ⟨link, hlink, hm⟩ := List.mem_flatMap.1 hm
    obtain ⟨ho, hn⟩ := hlinks link hlink
    obtain rfl | hm := List.mem_cons.1 hm
    · exact .inr ho
    · rw [List.mem_singleton.1 hm]
      exact .inl hn
  have hend : ∀ q : Parser, t.Facing [] q → t.table.power q.current.id = 0 := by
    intro q hq
    rw [hq.id_end, t.ends.power]
  obtain ⟨p, hm, hp⟩ := facing_of_moveOn (p := .start (first :: (spread links ++ tail))) rfl rfl
    hreadable htail
  have hp : t.Facing (first :: (spread links ++ [])) p := by rwa [List.append_nil]
  have hpower : ∀ root, t.operator? tree = some root → BindingPower.none < root.power :=
    fun root hr => t.positive (mem_of_operator? hr)
  obtain ⟨q, hq, hread⟩ := reads_of_joins hj hfirst hlinks hg hp hpower
    fun q root hq _ => (hend q hq).symm ▸ Nat.zero_le _
  have htree := hread tree q (.stay ((hend q hq).symm ▸ Nat.lt_irrefl 0))
  have hu : q.unread = [] ++ [] := hq.unread_end
  obtain ⟨s, hs, -⟩ := facing_of_moveOn hq.scopes hu (List.forall_mem_nil _) (.inl rfl)
  have hlast : (standard t.table).expect endId q = (.ok q.current, s) :=
    expect_eq_ok.2 ⟨hq.id_end, hs⟩
  exact congrArg Prod.fst (singleExpression_of_reads t.ends hm htree hlast)

/-- **Operators of any table are grouped as their powers say.** Operators between names are read as a
tree of them in which each one binds its operands as it should, and there is no other such tree. -/
theorem parseExpression_joins (t : OperatorTable) {first : Token} {links : List (Token × Token)}
    {tail : List Token} (hfirst : t.IsName first)
    (hlinks : ∀ link ∈ links, (∃ o, t.IsSign link.1 o) ∧ t.IsName link.2) (htail : IsTail tail) :
    ∃ tree, parseExpression t.table (first :: (spread links ++ tail)) = .ok tree ∧
      tree.Joins first links ∧ tree.Everywhere t.Grouped ∧
      ∀ other : Node, other.Joins first links → other.Everywhere t.Grouped → other = tree := by
  obtain ⟨tree, hj, hg⟩ := exists_joins_append (t := t) (.name first) everywhere_name
    fun link hm => (hlinks link hm).1
  have hread := parseExpression_of_joins hj hfirst hlinks htail hg
  refine ⟨tree, hread, hj, hg, fun other hother hg' => ?_⟩
  have hread' := parseExpression_of_joins hother hfirst hlinks htail hg'
  exact Except.ok.inj (hread'.symm.trans hread)

/-- The minus groups to the left and the hat to the right, with the same power. -/
theorem parseExpression_joins_at_levels :
    let t : OperatorTable := {
      before := [⟨"-", 60, false⟩, ⟨"or", 10, true⟩]
      after := [⟨"^", 60, true⟩]
      nodup := by decide
      apart := @(by decide)
      positive := @(by decide) }
    let name (text : String) : Token := ⟨.name, text, .start⟩
    let links := [(⟨.operator, "-", .start⟩, name "b"), (⟨.operator, "^", .start⟩, name "c"),
      (⟨.name, "or", .start⟩, name "d")]
    let tail := [Token.ending .start]
    t.IsName (name "a") ∧ (∀ link ∈ links, (∃ o, t.IsSign link.1 o) ∧ t.IsName link.2) ∧
      IsTail tail ∧
      ∃ tree, parseExpression t.table (name "a" :: (spread links ++ tail)) = .ok tree ∧
        tree.Joins (name "a") links ∧ tree.Everywhere t.Grouped ∧
        ∀ other : Node, other.Joins (name "a") links → other.Everywhere t.Grouped → other = tree := by
  intro t name links tail
  have hname : ∀ text ∈ ["a", "b", "c", "d"], t.IsName (name text) := by
    intro text hm
    refine ⟨rfl, ?_, @fun o ho => ?_⟩
    · exact (by decide : ∀ text ∈ ["a", "b", "c", "d"], text ≠ nameId) text hm
    · exact (by decide : ∀ text ∈ ["a", "b", "c", "d"], ∀ o ∈ t.operators, text ≠ o.id) text hm o ho
  have hlinks : ∀ link ∈ links, (∃ o, t.IsSign link.1 o) ∧ t.IsName link.2 := by
    refine List.forall_mem_cons.2 ⟨⟨⟨⟨"-", 60, false⟩, by decide, rfl, .inl rfl⟩, hname _ (by decide)⟩,
      List.forall_mem_cons.2 ⟨⟨⟨⟨"^", 60, true⟩, by decide, rfl, .inl rfl⟩, hname _ (by decide)⟩,
        List.forall_mem_singleton.2
          ⟨⟨⟨"or", 10, true⟩, by decide, rfl, .inr rfl⟩, hname _ (by decide)⟩⟩⟩
  exact ⟨hname _ (by decide), hlinks, .inr ⟨_, rfl⟩,
    parseExpression_joins t (hname _ (by decide)) hlinks (.inr ⟨_, rfl⟩)⟩

end OperatorTable

end ScriptTree
