import Mathlib.Data.List.Induction
import LineCalc.Document.Session
import LineCalc.Proofs.Registration

/-!
# Sessions over their requests

What a session keeps and what it has published depend on the requests so far, and for a document
only on the latest one that opened, changed or closed it (`Request.effect`, `latest`). A step lemma
says what one request does to the document of an address and what it publishes for it, and an
induction over the requests says the same of a whole run. So the text that is held, its index and
the diagnostics that the client shows cannot drift apart (`Session.run_keeps`), and the requests for
one document are answered as if there were no others (`Session.Same`).
-/

namespace LineCalc.Document

/-! ## Requests of a document -/

/-- The address of the document that a request is about. -/
def Request.uri : Request → String
  | .hold uri _ => uri
  | .close uri => uri
  | .hover uri _ _ => uri
  | .complete uri => uri

/-- What a request does to the document of an address: it gives the document a text, it takes the
document away, or it does nothing. -/
def Request.effect (uri : String) : Request → Option (Option String)
  | .hold address text => if address = uri then some (some text) else none
  | .close address => if address = uri then some none else none
  | .hover _ _ _ => none
  | .complete _ => none

/-- What the latest request that did something to the document of an address did to it. -/
def latest (uri : String) (requests : List Request) : Option (Option String) :=
  (requests.filterMap (Request.effect uri)).getLast?

/-- The diagnostics that a reply publishes for an address. -/
def Reply.publishedFor (uri : String) : Reply → Option (List Diagnostic)
  | .published address diagnostics => if address = uri then some diagnostics else none
  | .hover _ => none
  | .items _ => none
  | .failed _ => none

/-- The diagnostics that a client shows for an address: the last ones that were published. -/
def shown (uri : String) (replies : List Reply) : Option (List Diagnostic) :=
  (replies.filterMap (Reply.publishedFor uri)).getLast?

/-- A request does nothing to a document that it is not about. -/
theorem Request.effect_of_ne {uri : String} {request : Request} (h : request.uri ≠ uri) :
    request.effect uri = none := by
  cases request with
  | hold address text => exact if_neg h
  | close address => exact if_neg h
  | hover address line column => rfl
  | complete address => rfl

/-- A text with its index. -/
def Held.ofText (known : List String) (text : String) : Held :=
  ⟨text, Index.ofText known text⟩

/-- The diagnostics of a document: those of its index if it is held, and none if it is not. -/
def Held.diagnostics : Option Held → List Diagnostic
  | none => []
  | some held => held.index.diagnostics

namespace Session

/-- The answers to requests one after the other, and the session after them. -/
def run (session : Session) : List Request → List Reply × Session
  | [] => ([], session)
  | request :: requests =>
    let (reply, next) := session.handle request
    let (replies, last) := next.run requests
    (reply :: replies, last)

/-- The session after a run is the one after its requests one by one. -/
theorem run_append (session : Session) (before after : List Request) :
    session.run (before ++ after) =
      ((session.run before).1 ++ ((session.run before).2.run after).1,
        ((session.run before).2.run after).2) := by
  induction before generalizing session with
  | nil => rfl
  | cons request before ih => simp only [List.cons_append, run, ih]

/-! ## One request -/

/-- The names that are known stay the same. -/
@[simp] theorem known_handle (session : Session) (request : Request) :
    (session.handle request).2.known = session.known := by
  cases request with
  | hold address text => rfl
  | close address => rfl
  | hover address line column =>
    rw [handle]
    split <;> rfl
  | complete address => rfl

/-- A request that opens, changes and closes nothing leaves the session as it is. -/
theorem handle_of_asks (session : Session) {request : Request}
    (h : ∀ uri, request.effect uri = none) :
    (session.handle request).2 = session ∧
      ∀ uri, (session.handle request).1.publishedFor uri = none := by
  cases request with
  | hold address text => simp [Request.effect] at h
  | close address => simp [Request.effect] at h
  | hover address line column =>
    rw [handle]
    split <;> exact ⟨rfl, fun uri => rfl⟩
  | complete address => exact ⟨rfl, fun uri => rfl⟩

/-- What a request does to the document of an address is all that happens to this document. -/
theorem get?_handle (session : Session) (request : Request) (uri : String) :
    (session.handle request).2.documents.get? uri =
      match request.effect uri with
      | none => session.documents.get? uri
      | some text => text.map (Held.ofText session.known) := by
  cases request with
  | hold address text =>
    by_cases h : address = uri
    · rw [Request.effect, if_pos h, ← h]
      exact OrderedMap.get?_insert_self _ _ _
    · rw [Request.effect, if_neg h]
      exact OrderedMap.get?_insert_of_ne (Ne.symm h) _
  | close address =>
    by_cases h : address = uri
    · rw [Request.effect, if_pos h, ← h]
      exact OrderedMap.get?_erase_self _ _
    · rw [Request.effect, if_neg h]
      exact OrderedMap.get?_erase_of_ne (Ne.symm h)
  | hover address line column =>
    rw [(handle_of_asks session fun _ => rfl).1]
    rfl
  | complete address => rfl

/-- A request publishes something for an address if it does something to the document there, and
then the diagnostics of what it leaves. -/
theorem publishedFor_handle (session : Session) (request : Request) (uri : String) :
    (session.handle request).1.publishedFor uri =
      (request.effect uri).map fun text =>
        Held.diagnostics (text.map (Held.ofText session.known)) := by
  cases request with
  | hold address text =>
    rw [Request.effect, apply_ite (Option.map _)]
    rfl
  | close address =>
    rw [Request.effect, apply_ite (Option.map _)]
    rfl
  | hover address line column => exact (handle_of_asks session fun _ => rfl).2 uri
  | complete address => rfl

/-- No document is held twice after a request, if none was before. -/
theorem nodup_handle {session : Session} (h : session.documents.names.Nodup) (request : Request) :
    (session.handle request).2.documents.names.Nodup := by
  cases request with
  | hold address text => exact OrderedMap.nodup_names_insert h _ _
  | close address => exact OrderedMap.nodup_names_erase h _
  | hover address line column =>
    rw [(handle_of_asks session fun _ => rfl).1]
    exact h
  | complete address => exact h

/-! ## Any number of requests -/

/-- The names that are known stay the same over a run. -/
@[simp] theorem known_run (session : Session) (requests : List Request) :
    (session.run requests).2.known = session.known := by
  induction requests generalizing session with
  | nil => rfl
  | cons request requests ih =>
    have hrest := ih (session.handle request).2
    rw [known_handle] at hrest
    exact hrest

/-- No document is held twice after a run, if none was before. -/
theorem nodup_run {session : Session} (h : session.documents.names.Nodup)
    (requests : List Request) : (session.run requests).2.documents.names.Nodup := by
  induction requests generalizing session with
  | nil => exact h
  | cons request requests ih => exact ih (nodup_handle h request)

/-- Over a run, what was last done to a document is all that has happened to it. -/
theorem get?_run (session : Session) (requests : List Request) (uri : String) :
    (session.run requests).2.documents.get? uri =
      match latest uri requests with
      | none => session.documents.get? uri
      | some text => text.map (Held.ofText session.known) := by
  induction requests using List.reverseRecOn with
  | nil => rfl
  | append_singleton requests request ih =>
    have hlast : (session.run (requests ++ [request])).2 =
        ((session.run requests).2.handle request).2 := by
      rw [run_append]
      rfl
    rw [hlast, get?_handle, known_run, latest, List.filterMap_append]
    cases heffect : request.effect uri with
    | none =>
      rw [List.filterMap_cons_none heffect, List.filterMap_nil, List.append_nil]
      exact ih
    | some text =>
      rw [List.filterMap_cons_some heffect, List.filterMap_nil, List.getLast?_concat]

/-- Over a run, each thing that was done to a document has been published, in the same order. -/
theorem publishedFor_run (session : Session) (requests : List Request) (uri : String) :
    (session.run requests).1.filterMap (Reply.publishedFor uri) =
      (requests.filterMap (Request.effect uri)).map fun text =>
        Held.diagnostics (text.map (Held.ofText session.known)) := by
  induction requests generalizing session with
  | nil => rfl
  | cons request requests ih =>
    have hreply := publishedFor_handle session request uri
    have hrest := ih (session.handle request).2
    rw [known_handle] at hrest
    simp only [run]
    cases heffect : request.effect uri with
    | none =>
      rw [heffect] at hreply
      rw [List.filterMap_cons_none hreply, List.filterMap_cons_none heffect, hrest]
    | some text =>
      rw [heffect] at hreply
      rw [List.filterMap_cons_some hreply, List.filterMap_cons_some heffect, hrest, List.map_cons]

/-! ## Other documents -/

/-- Two sessions know the same names and have the same document at an address. -/
structure Same (uri : String) (session other : Session) : Prop where
  /-- The names that are known are the same. -/
  known : session.known = other.known
  /-- The document at the address is the same. -/
  get? : session.documents.get? uri = other.documents.get? uri

/-- A request for one document is no matter for another. -/
theorem Same.handle_of_ne {uri : String} (session : Session) {request : Request}
    (h : request.uri ≠ uri) : Same uri (session.handle request).2 session where
  known := known_handle session request
  get? := by rw [get?_handle, Request.effect_of_ne h]

section

variable {uri : String} {session other : Session} (h : Same uri session other)
include h

/-- The same requests leave a document the same. -/
theorem Same.run (requests : List Request) :
    Same uri (session.run requests).2 (other.run requests).2 where
  known := by rw [known_run, known_run, h.known]
  get? := by rw [get?_run, get?_run, h.known, h.get?]

/-- Requests for a document that is the same are answered in the same way. -/
theorem Same.reply {request : Request} (hrequest : request.uri = uri) :
    (session.handle request).1 = (other.handle request).1 := by
  subst hrequest
  cases request with
  | hold address text => simp only [handle, h.known]
  | close address => rfl
  | hover address line column =>
    have hhover : session.hover address line column = other.hover address line column := by
      unfold hover
      rw [show session.documents.get? address = other.documents.get? address from h.get?]
    simp only [handle, hhover]
    split <;> rfl
  | complete address =>
    have hcompletion : session.completion address = other.completion address := by
      unfold completion
      rw [show session.documents.get? address = other.documents.get? address from h.get?, h.known]
    simp only [handle, hcompletion]

end

/-! ## What a session keeps -/

/-- What holds of a session and of all replies so far after requests. -/
structure Keeps (known : List String) (requests : List Request) (replies : List Reply)
    (session : Session) : Prop where
  /-- The names that are known are those of the start. -/
  sameNames : session.known = known
  /-- No document is held twice. -/
  nodup : session.documents.names.Nodup
  /-- The documents that are held are those for which the latest request gave a text. -/
  names : ∀ uri, uri ∈ session.documents.names ↔ ∃ text, latest uri requests = some (some text)
  /-- A document has the text that the latest request gave, and the index of this text. -/
  held : ∀ uri held, session.documents.get? uri = some held →
    latest uri requests = some (some held.text) ∧ held.index = Index.ofText known held.text
  /-- A client shows the diagnostics of each document that there ever was: those of the index if it
  is held, and none if it is closed. -/
  shown : ∀ uri, shown uri replies =
    (latest uri requests).map fun _ => Held.diagnostics (session.documents.get? uri)

/-- A session without documents keeps what it should over every run. -/
theorem keeps_run (groups : List String) (requests : List Request) :
    Keeps (Builtin.knownNames groups) requests ((ofGroups groups).run requests).1
      ((ofGroups groups).run requests).2 := by
  have hget : ∀ uri, ((ofGroups groups).run requests).2.documents.get? uri =
      (latest uri requests).bind (Option.map (Held.ofText (Builtin.knownNames groups))) := by
    intro uri
    rw [get?_run]
    cases latest uri requests <;> rfl
  have hstart : (ofGroups groups).documents.names.Nodup := List.nodup_nil
  refine ⟨known_run _ _, nodup_run hstart requests, fun uri => ?names,
    fun uri held hheld => ?held, fun uri => ?shown⟩
  case names =>
    rw [OrderedMap.mem_names_iff, hget]
    constructor
    · rintro ⟨held, hheld⟩
      obtain ⟨text, hlatest, hmap⟩ := Option.bind_eq_some_iff.mp hheld
      obtain ⟨text, rfl, -⟩ := Option.map_eq_some_iff.mp hmap
      exact ⟨text, hlatest⟩
    · rintro ⟨text, hlatest⟩
      rw [hlatest]
      exact ⟨_, rfl⟩
  case held =>
    rw [hget] at hheld
    obtain ⟨text, hlatest, hmap⟩ := Option.bind_eq_some_iff.mp hheld
    obtain ⟨text, rfl, rfl⟩ := Option.map_eq_some_iff.mp hmap
    exact ⟨hlatest, rfl⟩
  case shown =>
    rw [hget, Document.shown, publishedFor_run, List.getLast?_map, ← latest]
    cases latest uri requests <;> rfl

/-- After any requests, in whatever order they come for whichever documents, the documents that are
held are those that the latest request about them has not closed. Each has the latest text that was
sent and the index of this text, and the diagnostics that were last published for a document are
those of its index, or none if it is closed. To ask for a word or for names changes and publishes
nothing. A request for one document changes neither another document nor any later answer to a
request for the other. -/
theorem run_keeps (groups : List String) (requests : List Request) :
    let session := ((ofGroups groups).run requests).2
    Keeps (Builtin.knownNames groups) requests ((ofGroups groups).run requests).1 session ∧
      (∀ uri line column, ∀ request ∈ [Request.hover uri line column, Request.complete uri],
        (session.handle request).2 = session ∧
          ∀ address, (session.handle request).1.publishedFor address = none) ∧
      ∀ request uri, request.uri ≠ uri → ∀ requests later,
        let there := ((session.handle request).2.run requests).2
        let here := (session.run requests).2
        there.documents.get? uri = here.documents.get? uri ∧
          (later.uri = uri → (there.handle later).1 = (here.handle later).1) := by
  intro session
  refine ⟨keeps_run groups requests, ?asks, ?others⟩
  case asks =>
    intro uri line column request hrequest
    have hasks : ∀ address, request.effect address = none := by
      simp only [List.mem_cons, List.not_mem_nil, or_false] at hrequest
      rcases hrequest with rfl | rfl <;> exact fun _ => rfl
    exact handle_of_asks session hasks
  case others =>
    intro request uri hne requests later
    have hsame := (Same.handle_of_ne session hne).run requests
    exact ⟨hsame.get?, fun hlater => hsame.reply hlater⟩

set_option maxRecDepth 4000 in
/-- A document with a name that is not known is held, and this is pointed out. Another one has been
closed, and its diagnostics have been taken back. -/
example :
    let requests := [.hold "a" "1", .hold "b" "1 +", .hold "a" "sin(x)", .close "b"]
    let (replies, session) := (ofGroups ["math"]).run requests
    session.documents.names = ["a"] ∧
      (session.documents.get? "a").map Held.text = some "sin(x)" ∧
      Document.shown "a" replies =
        some [⟨0, 4, 5, .information, "\"x\" is not bound by any builtin"⟩] ∧
      Document.shown "b" replies = some [] := by
  decide

end Session

end LineCalc.Document
