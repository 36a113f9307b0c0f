import LineCalc.Proofs.Parsing.Phases

/-!
# Leaves of a parsed tree

Every number, name and operator among the tokens becomes one leaf of the tree, and nothing else does
(`ReadsWith.leaves_perm`). An operator comes before its operands in the tree and may come behind the
first of them in the text, but the names keep their order (`ReadsWith.filter_leaves`).
-/

namespace LineCalc

open LineCalc.Parser (Production)

/-- A token that can be a leaf: a number, a name or an operator. -/
def Token.isLeaf (token : Token) : Bool :=
  token.kind = .number ∨ token.kind = .identifier ∨ token.kind.isOperator

/-- A token that is a sign, joins factors or is a caret can be a leaf. -/
theorem Token.isLeaf_of_kind {token : Token}
    (h : (token.kind.isSign ∨ token.kind.joinsFactors) ∨ token.kind = .caret) :
    token.isLeaf = true := by
  simp [isLeaf, isOperator_of_kind h]

/-- A parenthesis or a comma is no leaf. -/
theorem Token.isLeaf_of_bracket {token : Token} (h : token.kind = .leftParenthesis ∨
    token.kind = .rightParenthesis ∨ token.kind = .comma) : token.isLeaf = false := by
  rcases h with h | h | h <;>
    simp [isLeaf, h, TokenKind.isOperator, TokenKind.isSign, TokenKind.joinsFactors]

namespace Tree

variable {α β : Type}

mutual

/-- The leaves of a tree that is mapped are mapped. -/
theorem leaves_map (f : α → β) : ∀ t : Tree α, (t.map f).leaves = t.leaves.map f
  | .leaf a => rfl
  | .call callee arguments => by
    simp [map, leaves, leaves_map f callee, leavesList_mapList f arguments]

/-- So are those of several trees. -/
theorem leavesList_mapList (f : α → β) : ∀ trees : List (Tree α),
    leavesList (mapList f trees) = (leavesList trees).map f
  | [] => rfl
  | tree :: trees => by
    simp [mapList, leavesList, leaves_map f tree, leavesList_mapList f trees]

end

end Tree

/-! ## Which tokens are leaves -/

/-- An operator is the first leaf of its call, and stands between its operands in the text. -/
theorem leaves_perm_binary {operator : Token} {ts us : List Token} {left right : SyntaxTree}
    (ho : operator.isLeaf = true) (hleft : left.leaves.Perm (ts.filter Token.isLeaf))
    (hright : right.leaves.Perm (us.filter Token.isLeaf)) :
    (Tree.call (.leaf operator) [left, right]).leaves.Perm
      ((ts ++ operator :: us).filter Token.isLeaf) := by
  have hoperands := (hleft.append hright).cons operator
  simpa [Tree.leaves, Tree.leavesList, ho] using hoperands.trans List.perm_middle.symm

mutual

/-- The leaves are the tokens that can be leaves, in some order. -/
theorem ReadsWith.leaves_perm {skips : List Token → List Token → Prop} :
    ∀ {p : Production} {ts after : List Token} {t : SyntaxTree}, ReadsWith skips p ts after t →
      t.leaves.Perm (ts.filter Token.isLeaf)
  | _, _, _, _, .leaf h => by
    simp [Tree.leaves, Token.isLeaf, h]
  | _, _, _, _, .group ho h hc => by
    simpa [Token.isLeaf_of_bracket (.inl ho), Token.isLeaf_of_bracket (.inr (.inl hc))]
      using h.leaves_perm
  | _, _, _, _, .call h ho hus hc => by
    simpa [Tree.leaves, Token.isLeaf_of_bracket (.inl ho),
      Token.isLeaf_of_bracket (.inr (.inl hc))] using h.leaves_perm.append hus.leaves_perm
  | _, _, _, _, .primary h => h.leaves_perm
  | _, _, _, _, .power h hcaret hus =>
    leaves_perm_binary (Token.isLeaf_of_kind (.inr hcaret)) h.leaves_perm hus.leaves_perm
  | _, _, _, _, .factor h _ => h.leaves_perm
  | _, _, _, _, .signed hsign h _ => by
    simpa [Tree.leaves, Tree.leavesList, Token.isLeaf_of_kind (.inl (.inl hsign))]
      using h.leaves_perm
  | _, _, _, _, .term h => h.leaves_perm
  | _, _, _, _, .product h ho hus =>
    leaves_perm_binary (Token.isLeaf_of_kind (.inl (.inr ho))) h.leaves_perm hus.leaves_perm
  | _, _, _, _, .expression h => h.leaves_perm
  | _, _, _, _, .sum h ho hus =>
    leaves_perm_binary (Token.isLeaf_of_kind (.inl (.inl ho))) h.leaves_perm hus.leaves_perm
  | _, _, _, _, .complete h => h.leaves_perm

/-- So are those of the arguments of a call. -/
theorem ReadsArguments.leaves_perm {skips : List Token → List Token → Prop} :
    ∀ {ts after : List Token} {trees : List SyntaxTree}, ReadsArguments skips ts after trees →
      (Tree.leavesList trees).Perm (ts.filter Token.isLeaf)
  | _, _, _, .none => .nil
  | _, _, _, .some h hus => by
    simpa [Tree.leavesList] using h.leaves_perm.append hus.leaves_perm

/-- So are those of the arguments after the first. -/
theorem ReadsMore.leaves_perm {skips : List Token → List Token → Prop} :
    ∀ {ts after : List Token} {trees : List SyntaxTree}, ReadsMore skips ts after trees →
      (Tree.leavesList trees).Perm (ts.filter Token.isLeaf)
  | _, _, _, .nil => .nil
  | _, _, _, .cons hcomma h hus => by
    simpa [Tree.leavesList, Token.isLeaf_of_bracket (.inr (.inr hcomma))]
      using h.leaves_perm.append hus.leaves_perm

end

/-! ## In which order the names come -/

/-- Nothing but names is chosen. -/
def ChoosesNames (choice : Token → Bool) : Prop :=
  ∀ token, token.kind ≠ .identifier → choice token = false

/-- An operator that is not chosen may stand before its operands or between them. -/
theorem filter_leaves_binary {choice : Token → Bool} {operator : Token} {ts us : List Token}
    {left right : SyntaxTree} (ho : choice operator = false)
    (hleft : left.leaves.filter choice = ts.filter choice)
    (hright : right.leaves.filter choice = us.filter choice) :
    (Tree.call (.leaf operator) [left, right]).leaves.filter choice =
      (ts ++ operator :: us).filter choice := by
  simp [Tree.leaves, Tree.leavesList, ho, hleft, hright]

mutual

/-- The names are leaves in the order in which they come in the text. -/
theorem ReadsWith.filter_leaves {skips : List Token → List Token → Prop} {choice : Token → Bool}
    (hchoice : ChoosesNames choice) :
    ∀ {p : Production} {ts after : List Token} {t : SyntaxTree}, ReadsWith skips p ts after t →
      t.leaves.filter choice = ts.filter choice
  | _, _, _, _, .leaf _ => rfl
  | _, _, _, _, .group ho h hc => by
    have hopening := hchoice _ (by rw [ho]; simp)
    have hclosing := hchoice _ (by rw [hc]; simp)
    simp [hopening, hclosing, h.filter_leaves hchoice]
  | _, _, _, _, .call h ho hus hc => by
    have hopening := hchoice _ (by rw [ho]; simp)
    have hclosing := hchoice _ (by rw [hc]; simp)
    simp [Tree.leaves, hopening, hclosing, h.filter_leaves hchoice, hus.filter_leaves hchoice]
  | _, _, _, _, .primary h => h.filter_leaves hchoice
  | _, _, _, _, .power h hcaret hus =>
    filter_leaves_binary (hchoice _ (by simp [hcaret])) (h.filter_leaves hchoice)
      (hus.filter_leaves hchoice)
  | _, _, _, _, .factor h _ => h.filter_leaves hchoice
  | _, _, _, _, @ReadsWith.signed _ sign _ _ _ hsign h _ => by
    have hoperator := hchoice sign fun hname => by simp [hname, TokenKind.isSign] at hsign
    simp [Tree.leaves, Tree.leavesList, hoperator, h.filter_leaves hchoice]
  | _, _, _, _, .term h => h.filter_leaves hchoice
  | _, _, _, _, .product h ho hus =>
    filter_leaves_binary (hchoice _ fun hname => by simp [hname, TokenKind.joinsFactors] at ho)
      (h.filter_leaves hchoice) (hus.filter_leaves hchoice)
  | _, _, _, _, .expression h => h.filter_leaves hchoice
  | _, _, _, _, .sum h ho hus =>
    filter_leaves_binary (hchoice _ fun hname => by simp [hname, TokenKind.isSign] at ho)
      (h.filter_leaves hchoice) (hus.filter_leaves hchoice)
  | _, _, _, _, .complete h => h.filter_leaves hchoice

/-- So are those of the arguments of a call. -/
theorem ReadsArguments.filter_leaves {skips : List Token → List Token → Prop}
    {choice : Token → Bool} (hchoice : ChoosesNames choice) :
    ∀ {ts after : List Token} {trees : List SyntaxTree}, ReadsArguments skips ts after trees →
      (Tree.leavesList trees).filter choice = ts.filter choice
  | _, _, _, .none => rfl
  | _, _, _, .some h hus => by
    simp [Tree.leavesList, h.filter_leaves hchoice, hus.filter_leaves hchoice]

/-- So are those of the arguments after the first. -/
theorem ReadsMore.filter_leaves {skips : List Token → List Token → Prop}
    {choice : Token → Bool} (hchoice : ChoosesNames choice) :
    ∀ {ts after : List Token} {trees : List SyntaxTree}, ReadsMore skips ts after trees →
      (Tree.leavesList trees).filter choice = ts.filter choice
  | _, _, _, .nil => rfl
  | _, _, _, .cons hcomma h hus => by
    have hseparator := hchoice _ (by rw [hcomma]; simp)
    simp [Tree.leavesList, hseparator, h.filter_leaves hchoice, hus.filter_leaves hchoice]

end

end LineCalc
