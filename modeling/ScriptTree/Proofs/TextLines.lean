import ScriptTree.Proofs.Numerals

/-!
# Lines of a text

A text is split at its line ends. Behind a stretch of it, the line goes on in which the stretch ends
(`splitOn_line`); lines that each have an end are split again as they were (`splitOn_lines`).
-/

namespace ScriptTree

def lineBefore (text : List Char) : List Char := (text.reverse.takeWhile (· ≠ '\n')).reverse

theorem not_mem_lineBefore (text : List Char) : '\n' ∉ lineBefore text := by
  intro h
  have := Piece.of_mem_takeWhile (List.mem_reverse.1 h)
  simp at this

theorem lineBefore_cases (text : List Char) :
    text = lineBefore text ∨ ∃ upper, text = upper ++ '\n' :: lineBefore text := by
  have happ := congrArg List.reverse
    (List.takeWhile_append_dropWhile (p := (· ≠ '\n')) (l := text.reverse))
  rw [List.reverse_append, List.reverse_reverse] at happ
  have hstops := Piece.stops_dropWhile (· ≠ '\n') text.reverse
  cases hd : text.reverse.dropWhile (· ≠ '\n') with
  | nil =>
    rw [hd] at happ
    exact .inl happ.symm
  | cons c rest =>
    rw [hd] at happ hstops
    have hc : c = '\n' := by simpa using hstops c rfl
    rw [hc, List.reverse_cons, List.append_assoc] at happ
    exact .inr ⟨rest.reverse, happ.symm⟩

theorem splitOn_cons (c : Char) (text : List Char) :
    (c :: text).splitOn '\n' =
      if c = '\n' then [] :: text.splitOn '\n' else (text.splitOn '\n').modifyHead (c :: ·) := by
  unfold List.splitOn
  rw [List.splitOnP_cons_eq_if_modifyHead]
  by_cases hc : c = '\n' <;> simp [hc]

theorem splitOn_append (text after : List Char) :
    (text ++ '\n' :: after).splitOn '\n' = text.splitOn '\n' ++ after.splitOn '\n' :=
  List.splitOnP_append_cons text after (beq_self_eq_true '\n')

theorem splitOn_of_not_mem {text : List Char} (h : '\n' ∉ text) : text.splitOn '\n' = [text] := by
  refine List.splitOnP_eq_singleton fun c hc => ?_
  rw [beq_eq_false_iff_ne]
  exact fun heq => h (heq ▸ hc)

theorem splitOn_last (upper : List Char) {a b : List Char} (ha : '\n' ∉ a) (hb : '\n' ∉ b) :
    (upper ++ '\n' :: (a ++ '\n' :: b)).splitOn '\n' = upper.splitOn '\n' ++ [a, b] := by
  rw [splitOn_append, splitOn_append, splitOn_of_not_mem ha, splitOn_of_not_mem hb]
  rfl

theorem length_splitOn (text : List Char) :
    (text.splitOn '\n').length = text.count '\n' + 1 := by
  induction text with
  | nil => simp [List.splitOn]
  | cons c text ih =>
    rw [splitOn_cons]
    by_cases hc : c = '\n' <;> simp [hc, ih]

theorem splitOn_head (text : List Char) :
    (text.splitOn '\n')[0]? = some (text.takeWhile (· ≠ '\n')) := by
  induction text with
  | nil => simp [List.splitOn]
  | cons c text ih =>
    rw [splitOn_cons]
    by_cases hc : c = '\n'
    · simp [hc]
    · simp [hc, List.getElem?_modifyHead, ih]

theorem splitOn_line (before after : List Char) :
    ((before ++ after).splitOn '\n')[before.count '\n']? =
      some (lineBefore before ++ after.takeWhile (· ≠ '\n')) := by
  have hlast := not_mem_lineBefore before
  have hall : ∀ c ∈ lineBefore before, decide (c ≠ '\n') = true := by
    intro c hc
    rw [decide_eq_true_eq]
    exact fun heq => hlast (heq ▸ hc)
  have hhead : ((lineBefore before ++ after).splitOn '\n')[0]? =
      some (lineBefore before ++ after.takeWhile (· ≠ '\n')) := by
    rw [splitOn_head, List.takeWhile_append_of_pos hall]
  rcases lineBefore_cases before with h | ⟨upper, h⟩
  · rw [← h] at hhead hlast ⊢
    rw [List.count_eq_zero.2 hlast, hhead]
  · have hcount : before.count '\n' = (upper.splitOn '\n').length := by
      rw [length_splitOn, h, List.count_append, List.count_cons_self, List.count_eq_zero.2 hlast]
    rw [hcount]
    conv => lhs; rw [h, List.append_assoc, List.cons_append, splitOn_append]
    rw [List.getElem?_append_right (Nat.le_refl _), Nat.sub_self, hhead]

theorem splitOn_lines {lines : List (List Char)} (h : ∀ line ∈ lines, '\n' ∉ line) :
    (lines.flatMap (· ++ ['\n'])).splitOn '\n' = lines ++ [[]] := by
  induction lines with
  | nil => simp [List.splitOn]
  | cons line rest ih =>
    have hrest := ih fun other hm => h other (.tail _ hm)
    rw [List.flatMap_cons, List.append_assoc, List.singleton_append, splitOn_append, hrest,
      splitOn_of_not_mem (h line (.head _))]
    rfl

theorem not_mem_of_isDigits {text : List Char} (h : Piece.IsDigits text) : '\n' ∉ text := by
  intro hm
  have := h.2 '\n' hm
  revert this
  decide

theorem not_mem_repr (n : Nat) : '\n' ∉ n.repr.toList := not_mem_of_isDigits (Decimal.isDigits_repr n)

end ScriptTree
