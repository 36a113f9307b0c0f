import LineCalc.Proofs.CommandLine.Answers
import LineCalc.Proofs.Parsing.Renaming

/-!
# Blanks and answers

The places of tokens are not answered: a value has none, and the message of a parse error shows the
kind and the characters of the token found. So texts with the same tokens, apart from their places,
have the same answer (`run_eq_of_unplaced`). Two ways to come by such a text are to put blanks
between the tokens of a text, and to give its tokens as arguments of the command line, which puts
spaces between them (`run_spread`).
-/

namespace LineCalc

/-- The message of an error does not show the place of the token found. -/
theorem ParseError.message_unplaced (error : ParseError) :
    (error.rename Token.unplaced).message = error.message := rfl

/-- Texts with the same tokens, apart from their places, are parsed to the same expression, or there
are errors in both of them that expect the same and are the same apart from the place. -/
theorem parse_cases_of_unplaced {s s' : String}
    (h : (lex s').map Token.unplaced = (lex s).map Token.unplaced) :
    (∃ e, parse s = .ok e ∧ parse s' = .ok e) ∨
      ∃ error error', parse s = .error error ∧ parse s' = .error error' ∧
        error'.rename Token.unplaced = error.rename Token.unplaced := by
  have hparse := parse_eq_of_unplaced h
  cases hfirst : parse s with
  | ok e =>
    cases hsecond : parse s' with
    | ok e' =>
      rw [hfirst, hsecond] at hparse
      obtain rfl : e' = e := Except.ok.inj hparse
      exact .inl ⟨e', rfl, rfl⟩
    | error error' =>
      rw [hfirst, hsecond] at hparse
      cases hparse
  | error error =>
    cases hsecond : parse s' with
    | ok e' =>
      rw [hfirst, hsecond] at hparse
      cases hparse
    | error error' =>
      rw [hfirst, hsecond] at hparse
      exact .inr ⟨error, error', rfl, rfl, Except.error.inj hparse⟩

namespace CommandLine

section Numerics

variable [Numerics]

/-- Texts with the same tokens, apart from their places, have the same answer. -/
theorem run_eq_of_unplaced {s s' : String}
    (h : (lex s').map Token.unplaced = (lex s).map Token.unplaced) (setting : Option String) :
    run setting s' = run setting s := by
  rw [run_eq, run_eq]
  rcases parse_cases_of_unplaced h with
    ⟨e, hfirst, hsecond⟩ | ⟨error, error', hfirst, hsecond, herror⟩
  · rw [hfirst, hsecond]
  · have hmessage : error'.message = error.message := by
      rw [← error'.message_unplaced, herror, error.message_unplaced]
    rw [hfirst, hsecond]
    dsimp only
    rw [hmessage]

/-- Blanks that are put in at any offsets of a text that are not strictly inside a token change
nothing: the tokens have the same kinds and the same characters, the text is parsed to the same
expression or fails with the same expected kinds at such a token, and the answer is the same. And
with its tokens as the arguments of the command line the answer to the text is printed. -/
theorem run_spread (s : String) :
    (∀ gap : Nat → List Char, (∀ i, ∀ c ∈ gap i, Text.isBlank c = true) →
      (∀ token ∈ lex s, ∀ i, token.Covers i → gap i = []) →
        let s' := String.ofList (spread gap 0 s.toList)
        ((lex s').map Token.kind = (lex s).map Token.kind ∧
          (lex s').map Token.lexeme = (lex s).map Token.lexeme) ∧
        (match parse s with
          | .ok e => parse s' = .ok e
          | .error error => ∃ error', parse s' = .error error' ∧
              error'.expected = error.expected ∧ error'.found.kind = error.found.kind ∧
              error'.found.lexeme = error.found.lexeme) ∧
        ∀ setting, run setting s' = run setting s) ∧
      ∀ ts, lex s = ts ++ [Cursor.endToken s.toList] → ts ≠ [] → ∀ setting input,
        respond setting (ts.map Token.lexeme) input =
          ((run setting s).text ++ "\n", if (run setting s).ok then 0 else 1) := by
  constructor
  · intro gap hblank hgap s'
    have hlex : (lex s').map Token.unplaced = (lex s).map Token.unplaced := lex_spread hblank hgap
    have hkinds := congrArg (List.map Token.kind) hlex
    have hlexemes := congrArg (List.map Token.lexeme) hlex
    rw [List.map_map, List.map_map] at hkinds hlexemes
    refine ⟨⟨hkinds, hlexemes⟩, ?_, run_eq_of_unplaced hlex⟩
    rcases parse_cases_of_unplaced hlex with
      ⟨e, hfirst, hsecond⟩ | ⟨error, error', hfirst, hsecond, herror⟩
    · rw [hfirst]
      exact hsecond
    · rw [hfirst]
      have hexpected := congrArg ParseError.expected herror
      have hfound := congrArg ParseError.found herror
      have hkind := congrArg Token.kind hfound
      have hlexeme := congrArg Token.lexeme hfound
      exact ⟨error', hsecond, hexpected, hkind, hlexeme⟩
  · intro ts hlex hne setting input
    have hsource : source (ts.map Token.lexeme) input = " ".intercalate (ts.map Token.lexeme) := by
      rw [source, if_neg]
      simpa using hne
    rw [respond, hsource, run_eq_of_unplaced (lex_intercalate hlex)]

end Numerics

open Native

set_option maxRecDepth 8000 in
/-- Spaces before and behind all tokens of a text, and its tokens as arguments: a text that has a
value, and one that has none. Each of the tokens of the second one looks at the next one to see
whether it goes on, and does not go on with a space either. -/
theorem run_spread_value_and_error :
    let pi := "Number(-3.141592653589793)"
    (run none "-π" = ⟨pi, true⟩ ∧ run none " - π " = ⟨pi, true⟩ ∧
      respond none ["-", "π"] "" = (pi ++ "\n", 0)) ∧
    (lex " 1 e + # .5 ").map Token.lexeme = ["1", "e", "+", "#", ".5", ""] ∧
      run none " 1 e + # .5 " = run none "1e+#.5" ∧
      respond none ["1", "e", "+", "#", ".5"] "" = ((run none "1e+#.5").text ++ "\n", 1) := by
  intro pi
  refine ⟨?value, ?error⟩
  case value =>
    let tokens : List Token := [⟨.minus, "-", 0⟩, ⟨.identifier, "π", 1⟩]
    let gap : Nat → List Char := fun _ => [' ']
    have hlex : lex "-π" = tokens ++ [Cursor.endToken "-π".toList] := by rfl
    have hspread : String.ofList (spread gap 0 "-π".toList) = " - π " := by rfl
    have hvalue : run none "-π" = ⟨pi, true⟩ := by decide +kernel
    have hblank : ∀ i, ∀ c ∈ gap i, Text.isBlank c = true := by
      intro i c hc
      obtain rfl := List.mem_singleton.mp hc
      decide
    -- No token has more than one character.
    have hlengths : ∀ token ∈ lex "-π", token.lexeme.length ≤ 1 := by
      rw [hlex]
      decide
    have hgap : ∀ token ∈ lex "-π", ∀ i, token.Covers i → gap i = [] := by
      intro token htoken i hi
      obtain ⟨hfirst, hlast⟩ := hi
      have hlength := hlengths token htoken
      omega
    have hrun := ((run_spread "-π").1 gap hblank hgap).2.2 none
    have hrespond := (run_spread "-π").2 tokens hlex (by simp [tokens]) none ""
    rw [hspread, hvalue] at hrun
    rw [hvalue] at hrespond
    exact ⟨hvalue, hrun, hrespond⟩
  case error =>
    let tokens : List Token := [⟨.number, "1", 0⟩, ⟨.identifier, "e", 1⟩, ⟨.plus, "+", 2⟩,
      ⟨.unknown, "#", 3⟩, ⟨.number, ".5", 4⟩]
    let gap : Nat → List Char := fun i => if i = 5 then [] else [' ']
    have hlex : lex "1e+#.5" = tokens ++ [Cursor.endToken "1e+#.5".toList] := by rfl
    have hspread : String.ofList (spread gap 0 "1e+#.5".toList) = " 1 e + # .5 " := by rfl
    have herror : (run none "1e+#.5").ok = false := by rfl
    have hblank : ∀ i, ∀ c ∈ gap i, Text.isBlank c = true := by
      intro i c hc
      obtain ⟨-, rfl⟩ : ¬i = 5 ∧ c = ' ' := by simpa [gap] using hc
      decide
    -- The last number is the only token of more than one character.
    have hlengths : ∀ token ∈ tokens ++ [Cursor.endToken "1e+#.5".toList],
        token.lexeme.length ≤ 1 ∨ token.offset = 4 ∧ token.lexeme.length = 2 := by decide
    have hgap : ∀ token ∈ lex "1e+#.5", ∀ i, token.Covers i → gap i = [] := by
      intro token htoken i hi
      rw [hlex] at htoken
      obtain ⟨hfirst, hlast⟩ := hi
      have hlength := hlengths token htoken
      obtain rfl : i = 5 := by omega
      rfl
    obtain ⟨⟨-, hlexemes⟩, -, hrun⟩ := (run_spread "1e+#.5").1 gap hblank hgap
    have hrespond := (run_spread "1e+#.5").2 tokens hlex (by simp [tokens]) none ""
    rw [hspread, hlex] at hlexemes
    rw [herror] at hrespond
    exact ⟨hlexemes, hspread ▸ hrun none, hrespond⟩

end CommandLine

end LineCalc
