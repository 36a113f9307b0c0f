import LineCalc.CommandLine
import LineCalc.Number.Native
import LineCalc.Proofs.Evaluation.Failures
import LineCalc.Proofs.Lexing.Lexemes
import LineCalc.Proofs.Registration

/-!
# What is answered

Every source text has an answer, whatever the setting is (`run_answers`). It is a value if the text
is parsed and the expression has one. If not, it is the message of a parse error, of a name that is
not bound, or of a call that fails because a number is called or because a function refuses its
arguments. The last two are wrapped once.

Nothing else can fail on the way. Every number in the text is a literal, which has a value, and the
checks that a table makes of bindings refuse no built-in name.
-/

namespace LineCalc.CommandLine

open Evaluation (Yields)

section Numerics

variable [Numerics]

/-- The value or the failure of an expression over the operators and the names of groups. -/
def result (groups : List String) (expr : Expr) : Except (Failure Empty) (Value Empty) :=
  outcome (expr.evaluate noHost (Builtin.table groups) ())

/-- Why an expression fails: a name in it is not bound, or a call in it is refused. -/
inductive Blame (groups : List String) (expr : Expr) : Failure Empty → Prop
  | unbound {name : String} (hleaf : .identifier name ∈ expr.leaves)
    (hname : ¬Builtin.Binds groups name) : Blame groups expr (.undefinedIdentifier name)
  | call {failure : Failure Empty} (h : CallRefusal failure) : Blame groups expr failure

/-- An expression has a value if its leaves have values, or fails at the first one that has none
or in a call. -/
theorem evaluate_yields (groups : List String) (expr : Expr) :
    Yields (expr.evaluate noHost (Builtin.table groups))
      (fun _ => AllValued (Atom.value (Builtin.table (β := Empty) groups)) expr.leaves)
      (fun e => FirstFails (Atom.value (Builtin.table groups)) expr.leaves e ∨ CallRefusal e) :=
  Tree.evaluate_yields (fun b => nomatch b) _ expr

/-- An expression that fails is to blame for it. -/
theorem blame_of_result {groups : List String} {expr : Expr} {failure : Failure Empty}
    (h : result groups expr = .error failure) : Blame groups expr failure := by
  rcases (evaluate_yields groups expr).failure () failure h with hfirst | hcall
  · obtain ⟨before, a, after, hleaves, -, ha⟩ := hfirst
    obtain ⟨name, rfl, hnone, rfl⟩ := Atom.value_eq_error_iff.mp ha
    rw [Builtin.get?_table_eq_none_iff, Builtin.mem_knownNames_iff] at hnone
    exact .unbound (by simp [hleaves]) hnone
  · exact .call hcall

/-- The answer to a source text, by what it is parsed to and the result of that. -/
theorem run_eq (setting : Option String) (source : String) :
    run setting source =
      match parse source with
      | .error error => ⟨"ParseError: " ++ error.message, false⟩
      | .ok expr =>
        match result (Settings.groups setting) expr with
        | .ok v => ⟨v.display, true⟩
        | .error failure => ⟨failure.message, false⟩ := by
  unfold run Expression.ofString Expression.evaluate result Builtin.table
  cases parse source with
  | error error => rfl
  | ok expr =>
    dsimp only [Except.map]
    generalize Builtin.register Builtin.operatorTable (Settings.groups setting) = registered
    cases Expr.evaluate noHost registered.2 expr () <;> rfl

/-- A source text is answered with its value, a number with its digits or just that it is a function,
or with the message of its failure, which is one of three. All of its numbers are literals, and no built-in name is
refused where it is bound. The exit status says whether there is a value. -/
theorem run_answers (setting : Option String) (source : String) (arguments : List String)
    (input : String) :
    (match parse source with
      | .error error => run setting source = ⟨"ParseError: " ++ error.message, false⟩
      | .ok expr =>
        match result (Settings.groups setting) expr with
        | .ok v => run setting source = ⟨v.display, true⟩ ∧
            match v with
            | .number x => v.display = "Number(" ++ x.format ++ ")"
            | .function _ => v.display = "Function"
        | .error failure => run setting source = ⟨failure.message, false⟩ ∧
            Blame (Settings.groups setting) expr failure) ∧
      (∀ token ∈ lex source, token.kind = .number →
        ∃ l : Literal, l.WellFormed ∧ Literal.read token.lexeme.toList = (l, [])) ∧
      (∀ table : Table Empty,
        table.update (Table.bindings Builtin.operators) =
            (none, table.insertAll Builtin.operators) ∧
          ∀ group entries, Builtin.group? group = some entries →
            table.update (Table.bindings entries) = (none, table.insertAll entries)) ∧
      ((respond setting arguments input).2 = 0 ↔
        (run setting (CommandLine.source arguments input)).ok = true) := by
  refine ⟨?_, fun token htoken hkind => ?_, fun table => ⟨?_, fun group entries hgroup => ?_⟩, ?_⟩
  · rw [run_eq]
    cases parse source with
    | error error => rfl
    | ok expr =>
      dsimp only
      cases hresult : result (Settings.groups setting) expr with
      | ok v =>
        refine ⟨rfl, ?_⟩
        cases v <;> rfl
      | error failure => exact ⟨rfl, blame_of_result hresult⟩
  · obtain ⟨l, hwell, -, hread⟩ := exists_literal htoken hkind
    exact ⟨l, hwell, hread⟩
  · exact table.update_bindings Builtin.operators_ne_empty
  · exact table.update_bindings (Builtin.group_ne_empty hgroup)
  · unfold respond
    cases hok : (run setting (CommandLine.source arguments input)).ok <;> simp [hok]

end Numerics

open Native

set_option maxRecDepth 4000 in
/-- A number and a function are answered as such. Without groups a sine is a name that is not bound,
and to blame for the failure. -/
theorem run_number_function_unbound :
    let sine : Expr := .call (.leaf (.identifier "sin"))
      [.leaf (.number (Literal.toBinary64 "0".toList))]
    run none "-1.50" = ⟨"Number(-1.5)", true⟩ ∧ run none "sin" = ⟨"Function", true⟩ ∧
      run (some "none") "sin(0)" = ⟨"undefined identifier \"sin\"", false⟩ ∧
      Blame (Settings.groups (some "none")) sine (.undefinedIdentifier "sin") := by
  intro sine
  refine ⟨?number, ?function, ?unbound⟩
  case number =>
    let digits := "1.50".toList
    have hparse : parse "-1.50" =
      .ok (.call (.leaf (.identifier "-")) [.leaf (.number (Literal.toBinary64 digits))]) := by rfl
    have hgroups : Settings.groups none = ["math"] := by rfl
    have hresult : result ["math"]
        (.call (.leaf (.identifier "-")) [.leaf (.number (Literal.toBinary64 digits))]) =
      .ok (.number (Literal.toBinary64 digits).negate) := by rfl
    -- Of the number only its digits are computed: the decimal of the literal is shown without
    -- the zero at its end.
    have hdisplay : (Value.number (Literal.toBinary64 digits).negate : Value Empty).display =
      "Number(-1.5)" := by decide +kernel
    have hanswer := (run_answers none "-1.50" [] "").1
    rw [hparse] at hanswer
    dsimp only at hanswer
    rw [hgroups, hresult] at hanswer
    rw [← hdisplay]
    exact hanswer.1
  case function =>
    have hparse : parse "sin" = .ok (.leaf (.identifier "sin")) := by rfl
    have hgroups : Settings.groups none = ["math"] := by rfl
    have hresult : result ["math"] (.leaf (.identifier "sin")) =
      .ok (.function (.angle .sin)) := by rfl
    have hanswer := (run_answers none "sin" [] "").1
    rw [hparse] at hanswer
    dsimp only at hanswer
    rw [hgroups, hresult] at hanswer
    exact hanswer.1
  case unbound =>
    have hparse : parse "sin(0)" = .ok sine := by rfl
    have hgroups : Settings.groups (some "none") = [] := by rfl
    have hresult : result [] sine = .error (.undefinedIdentifier "sin") := by rfl
    have hanswer := (run_answers (some "none") "sin(0)" [] "").1
    rw [hparse] at hanswer
    dsimp only at hanswer
    rw [hgroups, hresult] at hanswer
    rw [hgroups]
    exact hanswer

end LineCalc.CommandLine
