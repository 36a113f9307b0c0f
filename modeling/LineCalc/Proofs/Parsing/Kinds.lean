import LineCalc.Proofs.Parsing.Failing
import LineCalc.Proofs.Parsing.Leaves
import LineCalc.Proofs.Parsing.Renaming

/-!
# Parsing by kinds

What the parser does with a text depends on the kinds of its tokens alone. For a list of kinds,
`decisions` says what is done: it is a tree that has places in the list at its leaves, or the kinds
that are expected at some place. It comes from the rules on stand-ins, tokens of which no more than
the place and the kind is known. The tokens of every text with these kinds are the stand-ins under
other names (`map_standIns`), and the rules do the same under other names. So each text is parsed to
the tree of its kinds with its own tokens at the places, or fails at its own token of the place
(`parsesAs_decisions`), and texts with the same kinds are parsed alike (`parse_of_same_kinds`).
-/

namespace LineCalc

namespace Tree

variable {α β : Type}

mutual

/-- A tree is mapped alike by functions that are the same on its leaves. -/
theorem map_congr {f g : α → β} :
    ∀ {t : Tree α}, (∀ a ∈ t.leaves, f a = g a) → t.map f = t.map g
  | .leaf a, h => congrArg Tree.leaf (h a (List.mem_singleton_self a))
  | .call callee arguments, h => by
    have hcallee : callee.map f = callee.map g :=
      map_congr fun a ha => h a (List.mem_append_left _ ha)
    have harguments : mapList f arguments = mapList g arguments :=
      mapList_congr fun a ha => h a (List.mem_append_right _ ha)
    rw [map, map, hcallee, harguments]

/-- So are several trees. -/
theorem mapList_congr {f g : α → β} :
    ∀ {trees : List (Tree α)}, (∀ a ∈ leavesList trees, f a = g a) →
      mapList f trees = mapList g trees
  | [], _ => rfl
  | tree :: trees, h => by
    have htree : tree.map f = tree.map g := map_congr fun a ha => h a (List.mem_append_left _ ha)
    have htrees : mapList f trees = mapList g trees :=
      mapList_congr fun a ha => h a (List.mem_append_right _ ha)
    rw [mapList, mapList, htree, htrees]

end

end Tree

/-! ## Stand-ins -/

namespace Token

/-- A token that stands for the one of a kind at a place of a list. -/
def standIn (place : Nat) (kind : TokenKind) : Token :=
  ⟨kind, "", place⟩

/-- The token that a stand-in stands for in a list, if there is one of its kind. -/
def resolve (tokens : List Token) (token : Token) : Token :=
  match tokens[token.offset]? with
  | some original => if original.kind = token.kind then original else token
  | none => token

/-- A token is of the kind of its stand-in. -/
theorem kind_resolve (tokens : List Token) (token : Token) :
    (token.resolve tokens).kind = token.kind := by
  unfold resolve
  split
  · split
    · assumption
    · rfl
  · rfl

/-- A stand-in stands for the token at its place. -/
theorem resolve_standIn {tokens : List Token} {place : Nat} {token : Token}
    (h : tokens[place]? = some token) : (standIn place token.kind).resolve tokens = token := by
  unfold resolve standIn
  rw [h]
  exact if_pos rfl

end Token

/-- Stand-ins for tokens of the given kinds. -/
def standIns (kinds : List TokenKind) : List Token :=
  kinds.mapIdx Token.standIn

/-- The stand-in for the end of the file behind tokens of the given kinds. -/
def endStandIn (kinds : List TokenKind) : Token :=
  .standIn kinds.length .endOfFile

/-- Stand-ins have the given kinds. -/
theorem map_kind_standIns (kinds : List TokenKind) : (standIns kinds).map Token.kind = kinds := by
  refine List.ext_getElem? fun place => ?_
  rw [standIns, List.getElem?_map, List.getElem?_mapIdx]
  cases kinds[place]? <;> rfl

section

variable {ts : List Token} {last : Token}

/-- Stand-ins for the tokens of a list stand for these tokens, whatever comes behind the list. -/
theorem map_standIns (ts us : List Token) :
    (standIns (ts.map Token.kind)).map (Token.resolve (ts ++ us)) = ts := by
  refine List.ext_getElem? fun place => ?_
  rw [standIns, List.getElem?_map, List.getElem?_mapIdx, List.getElem?_map]
  cases hplace : ts[place]? with
  | none => rfl
  | some token =>
    have hlt := (List.getElem?_eq_some_iff.mp hplace).1
    have happend : (ts ++ us)[place]? = some token := by
      rw [List.getElem?_append_left hlt, hplace]
    exact congrArg some (Token.resolve_standIn happend)

/-- The stand-in for the end of a list stands for its last token. -/
theorem resolve_endStandIn (hlast : last.kind = .endOfFile) :
    (endStandIn (ts.map Token.kind)).resolve (ts ++ [last]) = last := by
  have hplace : (ts ++ [last])[(ts.map Token.kind).length]? = some last := by
    rw [List.length_map, List.getElem?_concat_length]
  rw [endStandIn, ← hlast]
  exact Token.resolve_standIn hplace

/-- A stand-in tells the place of the token that it stands for. -/
theorem getElem?_offset (hlast : last.kind = .endOfFile) {token : Token}
    (h : token ∈ standIns (ts.map Token.kind) ++ [endStandIn (ts.map Token.kind)]) :
    (ts ++ [last])[token.offset]? = some (token.resolve (ts ++ [last])) := by
  rcases List.mem_append.mp h with h | h
  · obtain ⟨place, hlt, rfl⟩ := List.mem_mapIdx.mp h
    rw [List.length_map] at hlt
    have hplace : (ts ++ [last])[place]? = some ts[place] := by
      rw [List.getElem?_append_left hlt, List.getElem?_eq_getElem hlt]
    rw [List.getElem_map, Token.resolve_standIn hplace]
    exact hplace
  · rw [List.mem_singleton.mp h, resolve_endStandIn hlast]
    show (ts ++ [last])[(ts.map Token.kind).length]? = some last
    rw [List.length_map, List.getElem?_concat_length]

end

/-! ## Decisions -/

/-- What is parsed from tokens of the given kinds before the end of the file: a tree of the places
of tokens, or the kinds that are expected and the place of the token that is found instead. -/
def decisions (kinds : List TokenKind) : Except (List TokenKind × Nat) (Tree Nat) :=
  match Words.rule .complete (⟨standIns kinds⟩ : Words (endStandIn kinds)) with
  | .ok t _ => .ok (t.map Token.offset)
  | .error error _ => .error (error.expected, error.found.offset)

/-- A text is parsed to a tree with its tokens from the given places at the leaves, or it is no
expression, because something else is expected than its token at the given place. -/
def ParsesAs (source : String) : Except (List TokenKind × Nat) (Tree Nat) → Prop
  | .ok places => ∃ t, parseTokens source = .ok t ∧ parse source = .ok (t.map Atom.ofToken) ∧
      t.map some = places.map fun place => (lex source)[place]?
  | .error (expected, place) => ∃ found, (lex source)[place]? = some found ∧
      parseTokens source = .error ⟨expected, found⟩ ∧ parse source = .error ⟨expected, found⟩

section

variable {source : String} {ts : List Token}
  (hlex : lex source = ts ++ [Cursor.endToken source.toList])
  (hts : ∀ token ∈ ts, token.kind ≠ .endOfFile)
include hlex hts

/-- A text is parsed as the rule for complete expressions does it on stand-ins for its tokens, with
the tokens in the place of the stand-ins. -/
theorem parseTokens_eq_resolved :
    parseTokens source = Parser.outcome
      (Words.renamed (Token.resolve (lex source)) (Tree.map (Token.resolve (lex source)))
        (Words.rule .complete
          (⟨standIns (ts.map Token.kind)⟩ : Words (endStandIn (ts.map Token.kind))))) := by
  rw [← Words.rule_rename (Token.kind_resolve (lex source)) .complete, Words.rename, hlex,
    map_standIns]
  -- The type of a list mentions the token behind it, so the end is replaced in both places at once.
  have hall : ∀ last, last = Cursor.endToken source.toList →
      parseTokens source = Parser.outcome (Words.rule .complete (⟨ts⟩ : Words last)) := by
    rintro _ rfl
    exact parseTokens_eq hlex hts
  exact hall _ (resolve_endStandIn rfl)

/-- A tree that is read from stand-ins has stand-ins for tokens of the text at its leaves. -/
theorem map_resolve_eq {t : SyntaxTree} {w : Words (endStandIn (ts.map Token.kind))}
    (h : Words.rule .complete
      (⟨standIns (ts.map Token.kind)⟩ : Words (endStandIn (ts.map Token.kind))) = .ok t w) :
    (t.map (Token.resolve (lex source))).map some =
      (t.map Token.offset).map fun place => (lex source)[place]? := by
  have hkinds : ∀ token ∈ standIns (ts.map Token.kind), token.kind ≠ .endOfFile := by
    intro token htoken
    have hkind := List.mem_map_of_mem (f := Token.kind) htoken
    rw [map_kind_standIns] at hkind
    obtain ⟨original, horiginal, heq⟩ := List.mem_map.mp hkind
    exact heq ▸ hts original horiginal
  obtain ⟨us, hus, -, hreads⟩ := (Words.rule_eq_ok_iff rfl hkinds .complete t).mp h
  rw [Tree.map_map, Tree.map_map]
  refine Tree.map_congr fun token htoken => ?_
  have hmem := (List.mem_filter.mp (hreads.leaves_perm.mem_iff.mp htoken)).1
  have hplace := @getElem?_offset ts (Cursor.endToken source.toList) rfl token
    (List.mem_append_left _ (hus ▸ List.mem_append_left _ hmem))
  rw [← hlex] at hplace
  exact hplace.symm

omit hts

/-- The stand-in at which a rule fails stands for a token of the text. -/
theorem getElem?_found {error : ParseError} {w : Words (endStandIn (ts.map Token.kind))}
    (h : Words.rule .complete
      (⟨standIns (ts.map Token.kind)⟩ : Words (endStandIn (ts.map Token.kind))) = .error error w) :
    (lex source)[error.found.offset]? = some (error.found.resolve (lex source)) := by
  obtain ⟨v, ⟨us, hus⟩, hfound, -⟩ := (Words.rule_blocked rfl .complete _ error w.list h).place
  have hmem : error.found ∈ standIns (ts.map Token.kind) ++ [endStandIn (ts.map Token.kind)] := by
    rw [hfound, ← hus, List.append_assoc]
    refine List.mem_append_right us ?_
    cases v with
    | nil => exact List.mem_singleton_self _
    | cons token v => exact List.mem_cons_self
  have hplace := @getElem?_offset ts (Cursor.endToken source.toList) rfl error.found hmem
  rwa [← hlex] at hplace

end

/-- Every text is parsed by the decisions for the kinds of its tokens. -/
theorem parsesAs_decisions {source : String} {ts : List Token}
    (hlex : lex source = ts ++ [Cursor.endToken source.toList])
    (hts : ∀ token ∈ ts, token.kind ≠ .endOfFile) :
    ParsesAs source (decisions (ts.map Token.kind)) := by
  have hparse := parseTokens_eq_resolved hlex hts
  unfold decisions
  cases hrule : Words.rule .complete
    (⟨standIns (ts.map Token.kind)⟩ : Words (endStandIn (ts.map Token.kind))) with
  | ok t w =>
    rw [hrule] at hparse
    refine ⟨_, hparse, ?_, map_resolve_eq hlex hts hrule⟩
    rw [parse, hparse]
    rfl
  | error error w =>
    rw [hrule] at hparse
    refine ⟨_, getElem?_found hlex hrule, hparse, ?_⟩
    rw [parse, hparse]
    rfl

/-- Texts whose tokens are of the same kinds are parsed alike: to trees of one shape, with the tokens
from the same places of their lists at the leaves, or to errors with the same expected kinds at the
tokens of the same place. -/
theorem parse_of_same_kinds {s s' : String}
    (h : (lex s).map Token.kind = (lex s').map Token.kind) :
    ∃ outcome, ParsesAs s outcome ∧ ParsesAs s' outcome := by
  obtain ⟨ts, hlex, hts⟩ := lex_eq_append s
  obtain ⟨ts', hlex', hts'⟩ := lex_eq_append s'
  have hkinds : ts.map Token.kind = ts'.map Token.kind := by
    rw [hlex, hlex', List.map_append, List.map_append] at h
    exact (List.append_inj' h rfl).1
  exact ⟨_, parsesAs_decisions hlex hts, hkinds ▸ parsesAs_decisions hlex' hts'⟩

set_option maxRecDepth 4000 in
/-- A sign that is an operand, and a name that is called. The second text has another name, another
number and blanks. -/
theorem parse_signs_and_calls :
    (lex "-*f(1)").map Token.kind = (lex " - * speed ( 2e3 )").map Token.kind ∧
      ∃ outcome, ParsesAs "-*f(1)" outcome ∧ ParsesAs " - * speed ( 2e3 )" outcome := by
  have hkinds : (lex "-*f(1)").map Token.kind = (lex " - * speed ( 2e3 )").map Token.kind := by rfl
  exact ⟨hkinds, parse_of_same_kinds hkinds⟩

end LineCalc
