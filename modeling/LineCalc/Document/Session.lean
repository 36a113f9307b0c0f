import LineCalc.Builtin
import LineCalc.Document.Diagnostic
import LineCalc.Document.Word

/-!
# Sessions of a language server

A session holds documents by their addresses. A text that is opened or changed is indexed and its
diagnostics are published; closing a document takes them back. Hovering over a word tells what it
means if it is built in, and completion offers the known names and those that the document uses.
-/

namespace LineCalc.Document

/-- A text with its index. -/
structure Held where
  /-- The text. -/
  text : String
  /-- The index of the text. -/
  index : Index

/-- What a server keeps between requests. -/
structure Session where
  /-- The names that count as bound. -/
  known : List String
  /-- The documents by their addresses. -/
  documents : OrderedMap Held

/-- What a completion stands for. -/
inductive ItemKind where
  | function
  | variable
deriving DecidableEq

/-- The number of a kind in the protocol of language servers. -/
def ItemKind.code : ItemKind → Nat
  | .function => 3
  | .variable => 6

/-- A name that is offered. -/
structure Item where
  /-- The name. -/
  label : String
  /-- What it stands for. -/
  kind : ItemKind
  /-- What it means, if it is built in. -/
  detail : Option String
deriving DecidableEq

/-- What a client asks for. -/
inductive Request where
  /-- A document is opened or changed, and this is its whole text. -/
  | hold (uri text : String)
  /-- A document is closed. -/
  | close (uri : String)
  /-- The word at a position is asked for. -/
  | hover (uri : String) (line column : Nat)
  /-- The names to go on with are asked for. -/
  | complete (uri : String)

/-- What the server answers. -/
inductive Reply where
  | published (uri : String) (diagnostics : List Diagnostic)
  | hover (text : Option String)
  | items (items : List Item)
  | failed (error : PositionError)

namespace Session

/-- A session without documents. The operators and the names of groups are known. -/
def ofGroups (groups : List String) : Session :=
  ⟨Builtin.knownNames groups, OrderedMap.empty⟩

/-- The meaning of the word at a position of a document. -/
def hover (session : Session) (uri : String) (line column : Nat) :
    Except PositionError (Option String) :=
  match session.documents.get? uri with
  | none => .ok none
  | some held => return (← wordAt held.text line column).bind Builtin.signature?

/-- Whether a name is a symbol, which is typed and not completed. -/
def isSymbolName (name : String) : Bool :=
  match name.toList with
  | [c] => isSymbol c
  | _ => false

/-- The names to go on with in a document: the known ones, then those that it uses besides. -/
def completion (session : Session) (uri : String) : List Item :=
  let builtin := (sortNames session.known).filter fun name => !isSymbolName name
  let used := match session.documents.get? uri with
    | none => []
    | some held => held.index.names.filter fun name => name ∉ session.known
  builtin.map (fun name => ⟨name, .function, Builtin.signature? name⟩) ++
    used.map fun name => ⟨name, .variable, none⟩

/-- The answer to a request, and the session after it. -/
def handle (session : Session) : Request → Reply × Session
  | .hold uri text =>
    let index := Index.ofText session.known text
    (.published uri index.diagnostics,
      { session with documents := session.documents.insert uri ⟨text, index⟩ })
  | .close uri =>
    (.published uri [], { session with documents := session.documents.erase uri })
  | .hover uri line column =>
    match session.hover uri line column with
    | .ok text => (.hover text, session)
    | .error error => (.failed error, session)
  | .complete uri => (.items (session.completion uri), session)

end Session

end LineCalc.Document
