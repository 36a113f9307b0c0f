import Mathlib.Data.List.Nodup
import LineCalc.Proofs.Document.History
import LineCalc.Proofs.Document.Origins
import LineCalc.Proofs.Document.Scanning

/-!
# What a client is told about a name

A client is told about the names of a document in three ways. Diagnostics say which of them are not
bound, completion offers them, and hovering tells what they mean. Diagnostics are published when the
text comes in, and they are those of its index, which is kept (`shown_run`). So completion offers,
besides the names that are known, exactly those that the diagnostics shown last have denied
(`completion_offers`).

Hovering goes by the meanings of names and not by the names that are known. A word with a meaning is
an operator or a name of the group `math` (`Builtin.known_iff_of_meaning`), so a hover and the
diagnostics contradict each other where this group is not registered, and only there
(`hover_denied_iff`).
-/

namespace LineCalc

namespace Builtin

/-! ## Names with a meaning -/

/-- A name that has a meaning is an operator or one of the group. -/
theorem symbol_or_math_of_meaning {word meaning : String} (h : signature? word = some meaning) :
    (∃ op : Operator, word = op.symbol) ∨
      word ∈ (math : List (String × Value Empty)).map Prod.fst := by
  have hall : signatures.all (fun entry => entry.1 ∈ Operator.all.map Operator.symbol ||
      entry.1 ∈ (math : List (String × Value Empty)).map Prod.fst) = true := by decide
  have hcases := of_all_signatures hall h
  simp only [Bool.or_eq_true, decide_eq_true_eq] at hcases
  refine hcases.imp_left fun hsymbol => ?_
  obtain ⟨op, -, hop⟩ := List.mem_map.mp hsymbol
  exact ⟨op, hop.symm⟩

/-- A name that has a meaning is known if it is an operator or if its group is registered. -/
theorem known_iff_of_meaning {word meaning : String} (h : signature? word = some meaning)
    (groups : List String) : word ∈ knownNames groups ↔
      (∃ op : Operator, word = op.symbol) ∨ "math" ∈ groups := by
  rw [mem_knownNames_iff_math]
  constructor
  · exact Or.imp_right And.left
  · rintro (hop | hmath)
    · exact .inl hop
    · exact (symbol_or_math_of_meaning h).imp_right fun hword => ⟨hmath, hword⟩

/-- The names of the group start with letters. -/
theorem isLetter_of_mem_math {word : String}
    (h : word ∈ (math : List (String × Value Empty)).map Prod.fst) :
    word.toList.head?.any Text.isLetter = true := by
  have hall : ((math : List (String × Value Empty)).map Prod.fst).all
      (fun name => name.toList.head?.any Text.isLetter) = true := by decide +kernel
  exact List.all_eq_true.mp hall word h

end Builtin

namespace Document

/-! ## Sorted names -/

/-- Sorted names ascend. -/
theorem sortNames_ascending (names : List String) : (sortNames names).Pairwise (· < ·) := by
  have hsorted : (sortNames names).Pairwise fun a b => (!decide (b < a)) = true := by
    refine List.pairwise_mergeSort (fun a b c hab hbc => ?_) (fun a b => ?_) _
    · simp only [Bool.not_eq_true', decide_eq_false_iff_not, String.not_lt] at hab hbc ⊢
      exact String.le_trans hab hbc
    · simp only [Bool.or_eq_true, Bool.not_eq_true', decide_eq_false_iff_not, String.not_lt]
      exact String.le_total a b
  have hdistinct : (sortNames names).Nodup :=
    (List.mergeSort_perm _ _).nodup_iff.mpr (nodup_eraseDups names)
  refine (hsorted.and hdistinct).imp fun {a b} ⟨hle, hne⟩ => ?_
  simp only [Bool.not_eq_true', decide_eq_false_iff_not, String.not_lt] at hle
  by_contra hlt
  exact hne (String.le_antisymm hle (String.not_lt.mp hlt))

/-- Names are the same when they are sorted. -/
theorem mem_sortNames_iff {names : List String} {name : String} :
    name ∈ sortNames names ↔ name ∈ names :=
  (List.mergeSort_perm _ _).mem_iff.trans List.mem_eraseDups

/-! ## Names of an index -/

/-- A name is used in a text: on one of its lines it is a token. -/
def UsesName (text name : String) : Prop :=
  ∃ row ∈ Text.lines text.toList, ∃ token ∈ lex (String.ofList row),
    token.kind = .identifier ∧ token.lexeme = name

/-- A diagnostic says of a name that it is not bound. -/
def Diagnostic.Denies (diagnostic : Diagnostic) (name : String) : Prop :=
  diagnostic.message = "\"" ++ name ++ "\" is not bound by any builtin"

namespace Index

variable {known : List String} {line : Nat} {lines : List (List Char)} {name : String}

/-- The uses that are not bound are those of names that are not known. -/
theorem unbound_ofLines : (ofLines known line lines).unbound =
    (ofLines known line lines).uses.filter fun use => use.name ∉ known := by
  induction lines generalizing line with
  | nil => rfl
  | cons chars lines ih =>
    rw [ofLines, append, unbound_ofLine, ih, ← List.filter_append]

/-- The names that are used on lines are tokens there. -/
theorem exists_use_iff : (∃ use ∈ (ofLines known line lines).uses, use.name = name) ↔
    ∃ row ∈ lines, ∃ token ∈ lex (String.ofList row),
      token.kind = .identifier ∧ token.lexeme = name := by
  induction lines generalizing line with
  | nil => simp [ofLines, empty]
  | cons chars lines ih =>
    have hline : (∃ use ∈ (ofLine known line chars).uses, use.name = name) ↔
        ∃ token ∈ lex (String.ofList chars), token.kind = .identifier ∧ token.lexeme = name := by
      unfold ofLine
      split
      · next hblank =>
        -- On a blank line there is only the end.
        have hend : lex (String.ofList chars) = [Cursor.endToken chars] := by
          have hrest : (Cursor.ofString (String.ofList chars)).rest = chars := String.toList_ofList
          rw [lex, Cursor.tokens_of_blank]
          · rw [Cursor.ofString, String.toList_ofList]
          · rw [hrest, ← List.append_nil chars]
            exact List.dropWhile_append_of_pos (List.all_eq_true.mp hblank)
        rw [hend]
        simp [empty, Cursor.endToken]
      · simp only [mem_lineUses_iff]
        constructor
        · rintro ⟨_, ⟨token, htoken, hkind, rfl⟩, rfl⟩
          exact ⟨token, htoken, hkind, rfl⟩
        · rintro ⟨token, htoken, hkind, rfl⟩
          exact ⟨_, ⟨token, htoken, hkind, rfl⟩, rfl⟩
    simp only [ofLines, append, List.mem_append, or_and_right, exists_or, hline, ih,
      List.exists_mem_cons_iff]

/-- The problems of lines have the messages of the parser. -/
theorem message_of_mem_problems : ∀ problem ∈ (ofLines known line lines).problems,
    ∃ error : ParseError, problem.message = error.message := by
  induction lines generalizing line with
  | nil => exact nofun
  | cons chars lines ih =>
    intro problem hproblem
    rcases List.mem_append.mp hproblem with hproblem | hproblem
    · unfold ofLine at hproblem
      split at hproblem
      · cases hproblem
      · obtain ⟨error, -, rfl⟩ := mem_lineProblems_iff.mp hproblem
        exact ⟨error, rfl⟩
    · exact ih problem hproblem

end Index

/-- The diagnostic for a use denies the name of the use, and no other name. -/
theorem Diagnostic.denies_ofUnbound_iff {use : Use} {name : String} :
    (Diagnostic.ofUnbound use).Denies name ↔ use.name = name := by
  unfold Denies ofUnbound
  rw [← String.toList_inj, ← String.toList_inj]
  simp

/-- No message of the parser starts with a name in quotation marks. -/
theorem Diagnostic.not_denies_ofProblem {problem : Problem} {error : ParseError}
    (h : problem.message = error.message) (name : String) :
    ¬(Diagnostic.ofProblem problem).Denies name := by
  unfold Denies ofProblem
  rw [h, ← String.toList_inj]
  unfold ParseError.message
  split <;> simp

section

variable {known : List String} {text name : String}

/-- A diagnostic of a text that denies a name is that for a use of it. -/
theorem exists_unbound_of_denies {diagnostic : Diagnostic}
    (hmem : diagnostic ∈ (Index.ofText known text).diagnostics) (hdenies : diagnostic.Denies name) :
    ∃ use ∈ (Index.ofText known text).unbound, use.name = name ∧
      diagnostic = Diagnostic.ofUnbound use := by
  rcases List.mem_append.mp hmem with hmem | hmem
  · obtain ⟨problem, hproblem, rfl⟩ := List.mem_map.mp hmem
    obtain ⟨error, herror⟩ := Index.message_of_mem_problems problem hproblem
    exact absurd hdenies (Diagnostic.not_denies_ofProblem herror name)
  · obtain ⟨use, huse, rfl⟩ := List.mem_map.mp hmem
    exact ⟨use, huse, Diagnostic.denies_ofUnbound_iff.mp hdenies, rfl⟩

/-- The diagnostics of a text deny the names that are used in it and not known. -/
theorem exists_denies_iff :
    (∃ diagnostic ∈ (Index.ofText known text).diagnostics, diagnostic.Denies name) ↔
      name ∉ known ∧ UsesName text name := by
  have hunbound : (Index.ofText known text).unbound =
      (Index.ofText known text).uses.filter fun use => use.name ∉ known := Index.unbound_ofLines
  unfold UsesName
  rw [← @Index.exists_use_iff known 0, ← Index.ofText]
  constructor
  · rintro ⟨diagnostic, hmem, hdenies⟩
    obtain ⟨use, huse, rfl, -⟩ := exists_unbound_of_denies hmem hdenies
    rw [hunbound, List.mem_filter] at huse
    exact ⟨of_decide_eq_true huse.2, use, huse.1, rfl⟩
  · rintro ⟨hknown, use, huse, rfl⟩
    have hmem : use ∈ (Index.ofText known text).unbound := by
      rw [hunbound]
      exact List.mem_filter.mpr ⟨huse, decide_eq_true hknown⟩
    exact ⟨_, List.mem_append_right _ (List.mem_map_of_mem hmem),
      Diagnostic.denies_ofUnbound_iff.mpr rfl⟩

end

/-! ## Operators -/

/-- An operator is typed and not completed. -/
theorem isSymbolName_symbol (op : Operator) : Session.isSymbolName op.symbol = true := by
  cases op <;> rfl

/-- Of the names that are known the operators are symbols, and no others. -/
theorem isSymbolName_iff {groups : List String} {name : String}
    (h : name ∈ Builtin.knownNames groups) :
    Session.isSymbolName name = true ↔ ∃ op : Operator, name = op.symbol := by
  refine ⟨fun hsymbol => ?_, fun ⟨op, hop⟩ => hop ▸ isSymbolName_symbol op⟩
  rcases (Builtin.mem_knownNames_iff_math groups name).mp h with hop | ⟨-, hname⟩
  · exact hop
  · have hmath : ((Builtin.math : List (String × Value Empty)).map Prod.fst).all
        (fun name => !Session.isSymbolName name) = true := by decide
    have hnone := List.all_eq_true.mp hmath name hname
    rw [hsymbol] at hnone
    cases hnone

/-- A name that is used is no operator. -/
theorem UsesName.ne_symbol {text name : String} (h : UsesName text name) (op : Operator) :
    name ≠ op.symbol := by
  obtain ⟨row, -, token, htoken, hkind, rfl⟩ := h
  obtain ⟨before, c, cs, after, hstands⟩ :=
    Cursor.exists_tokenAt _ token htoken (by simp [hkind])
  have hword := hstands.isWordChar_of_identifier hkind c List.mem_cons_self
  intro hop
  have hhead : op.symbol.toList.head? = some c := by
    rw [← hop, hstands.lexeme]
    rfl
  have hsymbol : op.symbol.toList.head?.all fun c => isSymbol c := by cases op <;> rfl
  rw [hhead, Option.all_some, Text.not_isSymbol_of_isWordChar hword] at hsymbol
  cases hsymbol

/-! ## Sessions -/

namespace Session

/-- The diagnostics that are shown for a document are those of its index, and none are shown for a
document that is not held. -/
theorem shown_run (groups : List String) (requests : List Request) (uri : String) :
    (shown uri ((ofGroups groups).run requests).1).getD [] =
      Held.diagnostics (((ofGroups groups).run requests).2.documents.get? uri) := by
  rw [(keeps_run groups requests).shown, get?_run]
  cases latest uri requests <;> rfl

section

variable (groups : List String) (requests : List Request) (uri name : String)

/-- The diagnostics that are shown deny the names that are used in the text that is held and not
known. -/
theorem exists_shown_denies_iff :
    (∃ diagnostic ∈ (shown uri ((ofGroups groups).run requests).1).getD [],
        diagnostic.Denies name) ↔
      ∃ held, ((ofGroups groups).run requests).2.documents.get? uri = some held ∧
        name ∉ Builtin.knownNames groups ∧ UsesName held.text name := by
  rw [shown_run]
  cases hget : ((ofGroups groups).run requests).2.documents.get? uri with
  | none => simp [Held.diagnostics]
  | some held =>
    obtain ⟨-, hindex⟩ := (keeps_run groups requests).held uri held hget
    rw [Held.diagnostics, hindex, exists_denies_iff]
    simp

/-- What denies a name is only pointed out. -/
theorem severity_of_shown_denies :
    ∀ diagnostic ∈ (shown uri ((ofGroups groups).run requests).1).getD [],
      diagnostic.Denies name → diagnostic.severity = .information := by
  rw [shown_run]
  cases hget : ((ofGroups groups).run requests).2.documents.get? uri with
  | none => exact nofun
  | some held =>
    obtain ⟨-, hindex⟩ := (keeps_run groups requests).held uri held hget
    rw [Held.diagnostics, hindex]
    intro diagnostic hmem hdenies
    obtain ⟨use, -, -, rfl⟩ := exists_unbound_of_denies hmem hdenies
    rfl

end

/-! ## Completion -/

/-- Items of one kind: their names ascend, and they are those with a property. -/
structure Offers (kind : ItemKind) (items : List Item) (P : String → Prop) : Prop where
  kind : ∀ item ∈ items, item.kind = kind
  ascending : (items.map Item.label).Pairwise (· < ·)
  mem_iff : ∀ name, name ∈ items.map Item.label ↔ P name

/-- Names that ascend are offered as they are. -/
theorem Offers.of_names (kind : ItemKind) {names : List String} (h : names.Pairwise (· < ·))
    (detail : String → Option String) {P : String → Prop} (hmem : ∀ name, name ∈ names ↔ P name) :
    Offers kind (names.map fun name => ⟨name, kind, detail name⟩) P := by
  have hlabels : (names.map fun name => (⟨name, kind, detail name⟩ : Item)).map Item.label = names := by
    rw [List.map_map]
    exact List.map_id names
  refine ⟨fun item hitem => ?_, ?_, fun name => ?_⟩
  · obtain ⟨name, -, rfl⟩ := List.mem_map.mp hitem
    rfl
  · rwa [hlabels]
  · rw [hlabels, hmem]

/-- No name is offered twice. -/
theorem Offers.nodup {kind : ItemKind} {items : List Item} {P : String → Prop}
    (h : Offers kind items P) : (items.map Item.label).Nodup := by
  refine h.ascending.imp fun hlt heq => ?_
  rw [heq] at hlt
  exact String.lt_irrefl _ hlt

/-- The names that are known are offered but for operators. -/
theorem offers_known (groups : List String) :
    Offers .function
      (((sortNames (Builtin.knownNames groups)).filter fun name => !isSymbolName name).map
        fun name => ⟨name, .function, Builtin.signature? name⟩)
      fun name => name ∈ Builtin.knownNames groups ∧ ∀ op : Operator, name ≠ op.symbol := by
  refine .of_names .function ((sortNames_ascending _).filter _) _ fun name => ?_
  rw [List.mem_filter, mem_sortNames_iff]
  refine and_congr_right fun hname => ?_
  rw [Bool.not_eq_true', ← Bool.not_eq_true, isSymbolName_iff hname, not_exists]

/-- The names that are used in a text are offered if they are not known. -/
theorem offers_used (known : List String) (text : String) :
    Offers .variable
      (((Index.ofText known text).names.filter fun name => name ∉ known).map
        fun name => ⟨name, .variable, none⟩)
      fun name => name ∉ known ∧ UsesName text name := by
  refine .of_names .variable ((sortNames_ascending _).filter _) _ fun name => ?_
  rw [List.mem_filter, decide_eq_true_eq, and_comm]
  refine and_congr_right fun _ => ?_
  rw [mem_sortNames_iff, List.mem_map]
  exact Index.exists_use_iff

/-- Completion offers the names that are known, and those that are used besides in a text that is
held. -/
theorem exists_completion_eq (groups : List String) (requests : List Request) (uri : String) :
    ∃ builtin used : List Item,
      ((ofGroups groups).run requests).2.completion uri = builtin ++ used ∧
      Offers .function builtin (fun name =>
        name ∈ Builtin.knownNames groups ∧ ∀ op : Operator, name ≠ op.symbol) ∧
      Offers .variable used fun name =>
        ∃ held, ((ofGroups groups).run requests).2.documents.get? uri = some held ∧
          name ∉ Builtin.knownNames groups ∧ UsesName held.text name := by
  have hknown : ((ofGroups groups).run requests).2.known = Builtin.knownNames groups :=
    known_run _ _
  unfold completion
  rw [hknown]
  refine ⟨_, _, rfl, offers_known groups, ?_⟩
  cases hget : ((ofGroups groups).run requests).2.documents.get? uri with
  | none => exact .of_names .variable .nil _ (by simp)
  | some held =>
    obtain ⟨-, hindex⟩ := (keeps_run groups requests).held uri held hget
    dsimp only
    rw [hindex]
    simpa using offers_used (Builtin.knownNames groups) held.text

/-- After any requests completion offers first the names that are known and no operators, as
functions, and then as variables those that the diagnostics shown last for the document point out as
not bound. So every name that is used in a text that is held is offered once. -/
theorem completion_offers (groups : List String) (requests : List Request) (uri : String) :
    let session := ((ofGroups groups).run requests).2
    let diagnostics := (shown uri ((ofGroups groups).run requests).1).getD []
    ∃ builtin used : List Item,
      session.handle (.complete uri) = (.items (builtin ++ used), session) ∧
      Offers .function builtin (fun name =>
        name ∈ Builtin.knownNames groups ∧ ∀ op : Operator, name ≠ op.symbol) ∧
      Offers .variable used (fun name =>
        ∃ diagnostic ∈ diagnostics, diagnostic.severity = .information ∧ diagnostic.Denies name) ∧
      (∀ item ∈ builtin, ∀ other ∈ used, item.label ≠ other.label) ∧
      (session.documents.get? uri = none → used = []) ∧
      (∀ held, session.documents.get? uri = some held → ∀ row ∈ Text.lines held.text.toList,
        ∀ token ∈ lex (String.ofList row), token.kind = .identifier →
          ((builtin ++ used).map Item.label).count token.lexeme = 1) ∧
      ∀ op : Operator, op.symbol ∉ (builtin ++ used).map Item.label := by
  intro session diagnostics
  obtain ⟨builtin, used, hcompletion, hbuiltin, hused⟩ := exists_completion_eq groups requests uri
  have hapart : ∀ item ∈ builtin, ∀ other ∈ used, item.label ≠ other.label := by
    intro item hitem other hother heq
    obtain ⟨hknown, -⟩ := (hbuiltin.mem_iff _).mp (List.mem_map_of_mem hitem)
    obtain ⟨held, -, hunknown, -⟩ := (hused.mem_iff _).mp (List.mem_map_of_mem hother)
    exact hunknown (heq ▸ hknown)
  have hnodup : ((builtin ++ used).map Item.label).Nodup := by
    rw [List.map_append]
    refine List.nodup_append.mpr ⟨hbuiltin.nodup, hused.nodup, ?_⟩
    simpa using hapart
  refine ⟨builtin, used, ?reply, hbuiltin, ?shown, hapart, ?gone, ?once, ?operators⟩
  case reply => rw [handle, hcompletion]
  case shown =>
    refine ⟨hused.kind, hused.ascending, fun name => ?_⟩
    rw [hused.mem_iff, ← exists_shown_denies_iff groups requests uri name]
    refine exists_congr fun diagnostic => and_congr_right fun hmem => ?_
    exact ⟨fun h => ⟨severity_of_shown_denies groups requests uri name _ hmem h, h⟩, And.right⟩
  case gone =>
    intro hnone
    refine List.eq_nil_iff_forall_not_mem.mpr fun item hitem => ?_
    obtain ⟨held, hheld, -⟩ := (hused.mem_iff _).mp (List.mem_map_of_mem hitem)
    rw [hnone] at hheld
    cases hheld
  case once =>
    intro held hheld row hrow token htoken hkind
    have huses : UsesName held.text token.lexeme := ⟨row, hrow, token, htoken, hkind, rfl⟩
    refine List.count_eq_one_of_mem hnodup ?_
    rw [List.map_append, List.mem_append, hbuiltin.mem_iff, hused.mem_iff]
    by_cases hknown : token.lexeme ∈ Builtin.knownNames groups
    · exact .inl ⟨hknown, huses.ne_symbol⟩
    · exact .inr ⟨held, hheld, hknown, huses⟩
  case operators =>
    intro op hop
    rw [List.map_append, List.mem_append, hbuiltin.mem_iff, hused.mem_iff] at hop
    rcases hop with ⟨-, hne⟩ | ⟨held, -, -, huses⟩
    · exact hne op rfl
    · exact huses.ne_symbol op rfl

set_option maxRecDepth 4000 in
/-- A name that is used twice and not known, and one that is used and known, are both offered once. -/
theorem completion_offers_sine :
    let session := ((ofGroups ["math"]).run [.hold "file" "x+sin(x)"]).2
    session.documents.get? "file" = some (Held.ofText (Builtin.knownNames ["math"]) "x+sin(x)") ∧
      ∃ items, session.handle (.complete "file") = (.items items, session) ∧
        (items.map Item.label).count "x" = 1 ∧ (items.map Item.label).count "sin" = 1 := by
  intro session
  have hheld : session.documents.get? "file" =
      some (Held.ofText (Builtin.knownNames ["math"]) "x+sin(x)") :=
    OrderedMap.get?_insert_self _ _ _
  have hrow : "x+sin(x)".toList ∈ Text.lines "x+sin(x)".toList := by decide
  have hlex : lex "x+sin(x)" = [⟨.identifier, "x", 0⟩, ⟨.plus, "+", 1⟩,
      ⟨.identifier, "sin", 2⟩, ⟨.leftParenthesis, "(", 5⟩, ⟨.identifier, "x", 6⟩,
      ⟨.rightParenthesis, ")", 7⟩, ⟨.endOfFile, "", 8⟩] := by rfl
  obtain ⟨builtin, used, hreply, -, -, -, -, honce, -⟩ :=
    completion_offers ["math"] [.hold "file" "x+sin(x)"] "file"
  exact ⟨hheld, _, hreply,
    honce _ hheld _ hrow ⟨.identifier, "x", 0⟩ (by rw [String.ofList_toList, hlex]; simp) rfl,
    honce _ hheld _ hrow ⟨.identifier, "sin", 2⟩ (by rw [String.ofList_toList, hlex]; simp) rfl⟩

end Session

/-! ## Hovering -/

/-- A word with a meaning that is found in a text and is no operator is a name that the text uses. -/
theorem usesName_of_wordAt {text : String} {line column : Nat} {word meaning : String}
    (hword : wordAt text line column = .ok (some word))
    (hmeaning : Builtin.signature? word = some meaning) (hop : ∀ op : Operator, word ≠ op.symbol) :
    UsesName text word := by
  have hmath := (Builtin.symbol_or_math_of_meaning hmeaning).resolve_left (not_exists.mpr hop)
  have hrow : ∃ row, (Text.lines text.toList)[line]? = some row := by
    cases hget : (Text.lines text.toList)[line]? with
    | some row => exact ⟨row, rfl⟩
    | none =>
      unfold wordAt at hword
      rw [hget] at hword
      cases hword
  obtain ⟨row, hrow⟩ := hrow
  rcases exists_token_or_insideNumber hrow hword hmeaning with
    ⟨token, htoken, rfl, -⟩ | ⟨-, hsign⟩
  · obtain ⟨c, cs, hchars, -, hdigit, hliteral⟩ := Builtin.exists_head hmeaning
    have hletter := Builtin.isLetter_of_mem_math hmath
    rw [hchars] at hletter
    have hend : token.kind ≠ .endOfFile := by
      intro hkind
      rw [eq_endToken_of_mem_lex htoken hkind] at hchars
      cases hchars
    obtain ⟨before, c', cs', after, h⟩ := Cursor.exists_tokenAt _ token htoken hend
    obtain ⟨rfl, -⟩ := List.cons.inj (h.lexeme.symm.trans hchars)
    refine ⟨row, List.mem_of_getElem? hrow, token, htoken, ?_, rfl⟩
    exact h.identifier_of_isLetter hletter hdigit fun hpoint => hliteral (by simp [hpoint])
  · -- In a number only a sign is found, and that is an operator.
    rcases hsign with rfl | rfl
    · exact absurd rfl (hop .add)
    · exact absurd rfl (hop .subtract)

namespace Session

/-- A hover that is answered with a meaning is over a word of a text that is held. -/
theorem exists_hovered {session : Session} {uri : String} {line column : Nat} {meaning : String}
    (h : (session.handle (.hover uri line column)).1 = .hover (some meaning)) :
    ∃ held word, session.documents.get? uri = some held ∧
      wordAt held.text line column = .ok (some word) ∧ Builtin.signature? word = some meaning := by
  cases hget : session.documents.get? uri with
  | none =>
    have hhover : session.hover uri line column = .ok none := by
      unfold Session.hover
      rw [hget]
    rw [handle, hhover] at h
    cases h
  | some held =>
    rw [handle_hover_eq hget] at h
    cases hword : wordAt held.text line column with
    | error error =>
      rw [hword] at h
      cases h
    | ok word =>
      rw [hword] at h
      obtain ⟨word, rfl, hmeaning⟩ := Option.bind_eq_some_iff.mp (Reply.hover.inj h)
      exact ⟨held, word, rfl, hword, hmeaning⟩

/-- After any requests, a hover that is answered with a meaning is over a word of the text that is
held and has this meaning. The diagnostics shown last for the document deny the word exactly if it is
not known, that is, if it is no operator and the group `math` is not registered. -/
theorem hover_denied_iff (groups : List String) (requests : List Request) (uri : String)
    (line column : Nat) (meaning : String)
    (h : (((ofGroups groups).run requests).2.handle (.hover uri line column)).1 =
      .hover (some meaning)) :
    let session := ((ofGroups groups).run requests).2
    let diagnostics := (shown uri ((ofGroups groups).run requests).1).getD []
    ∃ held word, session.documents.get? uri = some held ∧
      wordAt held.text line column = .ok (some word) ∧ Builtin.signature? word = some meaning ∧
      ((∃ diagnostic ∈ diagnostics, diagnostic.Denies word) ↔ word ∉ session.known) ∧
      (word ∉ session.known ↔ (∀ op : Operator, word ≠ op.symbol) ∧ "math" ∉ groups) := by
  intro session diagnostics
  obtain ⟨held, word, hheld, hword, hmeaning⟩ := exists_hovered h
  have hknown : session.known = Builtin.knownNames groups := known_run _ _
  have hunknown : word ∉ Builtin.knownNames groups ↔
      (∀ op : Operator, word ≠ op.symbol) ∧ "math" ∉ groups := by
    rw [Builtin.known_iff_of_meaning hmeaning, not_or, not_exists]
  rw [hknown]
  refine ⟨held, word, hheld, hword, hmeaning, ?_, hunknown⟩
  rw [exists_shown_denies_iff]
  constructor
  · rintro ⟨-, -, hnot, -⟩
    exact hnot
  · intro hnot
    exact ⟨held, hheld, hnot, usesName_of_wordAt hword hmeaning (hunknown.mp hnot).1⟩

set_option maxRecDepth 4000 in
/-- Where the group is registered, a hover over one of its names is answered, and no diagnostic denies
this name. -/
theorem hover_over_sine :
    let run := (ofGroups ["math"]).run [.hold "file" "sin+x"]
    (run.2.handle (.hover "file" 0 0)).1 = .hover (some "sin(x): sine of x radians") ∧
      ∀ diagnostic ∈ (shown "file" run.1).getD [], ¬diagnostic.Denies "sin" := by
  intro run
  have hanswer : (run.2.handle (.hover "file" 0 0)).1 =
      .hover (some "sin(x): sine of x radians") := by rfl
  refine ⟨hanswer, fun diagnostic hshown hdenies => ?_⟩
  obtain ⟨held, word, hheld, hword, -, hdenied, hunknown⟩ :=
    hover_denied_iff ["math"] [.hold "file" "sin+x"] "file" 0 0 _ hanswer
  have htext : held = Held.ofText (Builtin.knownNames ["math"]) "sin+x" :=
    Option.some.inj (hheld.symm.trans (OrderedMap.get?_insert_self _ _ _))
  have hsine : wordAt "sin+x" 0 0 = .ok (some "sin") := by rfl
  rw [htext, Held.ofText, hsine] at hword
  obtain rfl := Option.some.inj (Except.ok.inj hword)
  exact (hunknown.mp (hdenied.mp ⟨diagnostic, hshown, hdenies⟩)).2 List.mem_cons_self

set_option maxRecDepth 4000 in
/-- Without the group, a hover over one of its names is still answered with what the name means, and
a diagnostic says that it is not bound. -/
theorem hover_means_denied_sine :
    let run := (ofGroups []).run [.hold "file" "sin"]
    (run.2.handle (.hover "file" 0 0)).1 = .hover (some "sin(x): sine of x radians") ∧
      ∃ diagnostic ∈ (shown "file" run.1).getD [], diagnostic.Denies "sin" := by
  intro run
  have hshown : (shown "file" run.1).getD [] = [Diagnostic.ofUnbound ⟨"sin", 0, 0⟩] := by rfl
  rw [hshown]
  exact ⟨by rfl, _, List.mem_cons_self, Diagnostic.denies_ofUnbound_iff.mpr rfl⟩

end Session

end Document

end LineCalc
