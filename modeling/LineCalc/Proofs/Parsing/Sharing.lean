import LineCalc.Proofs.Parsing.Positions

/-!
# Parsers that share cursors

A clone of a parser has a cursor of its own, at the place of the other one. A commit does not copy
anything back: the parser goes on with the very cursor of the clone, so that from then on two
parsers have the same cursor and each of them moves it for both. `Pool` keeps the cursors apart
from the parsers that have them.

As long as no parser is used again after it has been committed into another one, this cannot be
noticed. The parsers that are still in use have different cursors (`Linked.apart`), a turn of one of
them does not move those of the others (`Linked.replace`), and all replies are those of parsers
that are copied (`Linked.run`), and so those of indices into the tokens
(`sharing_refines_positions`).
-/

namespace LineCalc.Parser

/-! ## Cursors and the parsers that have them -/

/-- A parser among others: which cursor it has, and its buffer. -/
structure Handle where
  /-- Where its cursor is kept. -/
  cursor : Nat
  /-- The last token read, unless it has been consumed. -/
  buffer : Option Token

/-- Some parsers, and the cursors that are kept for them. -/
structure Pool where
  /-- The cursors. -/
  cursors : List Cursor
  /-- The parsers, each of which has one of the cursors. -/
  handles : List Handle

/-- A step of one of the parsers. While it reads a production, a parser may commit to clones that it
has made to try something. Then it ends with the cursor of a clone, and the one it had has been left
somewhere on the way. -/
structure Turn where
  /-- The parser that takes the step. -/
  on : Nat
  /-- The step. -/
  step : Step
  /-- Where the cursor of the parser has been left, if it reads and ends with another one. -/
  left : Option Cursor

namespace Pool

/-- One parser at the start of a text. -/
def start (source : String) : Pool :=
  ⟨[Cursor.ofString source], [⟨0, none⟩]⟩

/-- The cursor and the buffer of a parser. -/
def lookahead (pool : Pool) (handle : Handle) : Lookahead :=
  ⟨pool.cursors.getD handle.cursor default, handle.buffer⟩

/-- A parser moves its cursor. -/
def move (pool : Pool) (on : Nat) (handle : Handle) (s : Lookahead) : Pool where
  cursors := pool.cursors.set handle.cursor s.cursor
  handles := pool.handles.set on ⟨handle.cursor, s.buffer⟩

/-- A parser leaves its cursor and goes on with a new one. -/
def leave (pool : Pool) (on : Nat) (handle : Handle) (left : Cursor) (s : Lookahead) : Pool where
  cursors := pool.cursors.set handle.cursor left ++ [s.cursor]
  handles := pool.handles.set on ⟨pool.cursors.length, s.buffer⟩

end Pool

namespace Turn

/-- The step without the cursor that it leaves. -/
def plain (turn : Turn) : Nat × Step :=
  (turn.on, turn.step)

/-- The reply to a turn, and what there is afterwards. A clone gets a new cursor, and a commit goes
on with the cursor of the parser that is committed. -/
def run (turn : Turn) (handle : Handle) (pool : Pool) : Reply × Pool :=
  let s := pool.lookahead handle
  let moved : Reply × Lookahead → Reply × Pool := fun (reply, s) =>
    (reply, pool.move turn.on handle s)
  match turn.step with
  | .peek => moved (reply Parser.peek .token s)
  | .advance => moved (reply Parser.advance .token s)
  | .expect kind => moved (reply (Parser.expect kind) .token s)
  | .clone => (.clone pool.handles.length,
      ⟨pool.cursors ++ [s.cursor], pool.handles ++ [⟨pool.cursors.length, s.buffer⟩]⟩)
  | .commit source =>
    (.moved, ⟨pool.cursors, pool.handles.set turn.on (pool.handles.getD source handle)⟩)
  | .read production =>
    match turn.left with
    | none => moved (reply (Parser.read production) .tree s)
    | some left =>
      let (reply, s) := reply (Parser.read production) .tree s
      (reply, pool.leave turn.on handle left s)

/-- The parser that a turn commits into another one. -/
def committed (turn : Turn) : Option Nat :=
  match turn.step with
  | .commit source => if source = turn.on then none else some source
  | _ => none

/-- A parser is not committed into itself. -/
theorem committed_ne {turn : Turn} {k : Nat} (h : turn.committed = some k) : k ≠ turn.on := by
  unfold committed at h
  split at h
  · split at h
    · cases h
    · next hne =>
      cases h
      exact hne
  · cases h

/-- A turn uses the parser that takes it, and the one that is committed by it. -/
def Uses (turn : Turn) (k : Nat) : Prop :=
  turn.on = k ∨ turn.step = .commit k

end Turn

/-- The replies to turns, each with the token that stands before its parser afterwards, and what
there is at the end. A turn of a parser that does not exist ends the run. -/
def Pool.run : Pool → List Turn → List (Reply × Token) × Pool
  | pool, [] => ([], pool)
  | pool, turn :: turns =>
    match pool.handles[turn.on]? with
    | none => ([], pool)
    | some handle =>
      let (reply, pool) := turn.run handle pool
      let next := (pool.lookahead (pool.handles.getD turn.on handle)).peek.1
      let (replies, pool) := pool.run turns
      ((reply, next) :: replies, pool)

/-- No parser is used again after it has been committed into another one. -/
def NotUsedAgain (turns : List Turn) : Prop :=
  turns.Pairwise fun earlier later => ∀ k ∈ earlier.committed, ¬later.Uses k

/-! ## Different cursors -/

/-- A parser of a pool has a cursor and a buffer. -/
structure Pool.Holds (pool : Pool) (handle : Handle) (s : Lookahead) : Prop where
  cursor : pool.cursors[handle.cursor]? = some s.cursor
  buffer : handle.buffer = s.buffer

/-- What a parser has is found. -/
theorem Pool.Holds.lookahead_eq {pool : Pool} {handle : Handle} {s : Lookahead}
    (h : pool.Holds handle s) : pool.lookahead handle = s := by
  rw [lookahead, List.getD_eq_getElem?_getD, h.cursor, h.buffer]
  rfl

/-- The parsers of a pool are copies of others, except those that are gone. The ones that are not
have different cursors. -/
structure Linked (gone : Nat → Prop) (pool : Pool) (parsers : List Lookahead) : Prop where
  length : pool.handles.length = parsers.length
  holds : ∀ (k : Nat) handle, ¬gone k → pool.handles[k]? = some handle →
    ∃ s, parsers[k]? = some s ∧ pool.Holds handle s
  apart : ∀ (j k : Nat) handle other, ¬gone j → ¬gone k → pool.handles[j]? = some handle →
    pool.handles[k]? = some other → handle.cursor = other.cursor → j = k

namespace Linked

variable {gone : Nat → Prop} {pool : Pool} {parsers : List Lookahead}

/-- More of the parsers may be gone. -/
theorem mono (h : Linked gone pool parsers) {gone' : Nat → Prop} (hgone : ∀ k, gone k → gone' k) :
    Linked gone' pool parsers where
  length := h.length
  holds k handle hk := h.holds k handle (mt (hgone k) hk)
  apart j k handle other hj hk := h.apart j k handle other (mt (hgone j) hj) (mt (hgone k) hk)

/-- One parser and its copy get a new place. Its cursor is not that of another parser, and the
cursors of the others are not moved. -/
theorem replace (h : Linked gone pool parsers) {on : Nat} {cursors : List Cursor} {handle : Handle}
    {s : Lookahead} (hs : Pool.Holds ⟨cursors, pool.handles.set on handle⟩ handle s)
    (hothers : ∀ (k : Nat) other, ¬gone k → k ≠ on → pool.handles[k]? = some other →
      cursors[other.cursor]? = pool.cursors[other.cursor]? ∧ other.cursor ≠ handle.cursor) :
    Linked gone ⟨cursors, pool.handles.set on handle⟩ (parsers.set on s) where
  length := by simp [h.length]
  holds := by
    intro k other hk hother
    rcases eq_of_getElem?_set hother with ⟨rfl, hlt, rfl⟩ | ⟨hon, hother⟩
    · exact ⟨s, List.getElem?_set_self (h.length ▸ hlt), hs⟩
    · obtain ⟨t, ht, hholds⟩ := h.holds k other hk hother
      refine ⟨t, by rw [List.getElem?_set_ne (Ne.symm hon), ht], ?_, hholds.buffer⟩
      exact (hothers k other hk hon hother).1.trans hholds.cursor
  apart := by
    -- Of two parsers with one cursor both have been replaced, or neither has.
    intro j k first second hj hk hfirst hsecond hsame
    rcases eq_of_getElem?_set hfirst with ⟨rfl, -, rfl⟩ | ⟨hjon, hold⟩
    · rcases eq_of_getElem?_set hsecond with ⟨rfl, -, -⟩ | ⟨hkon, hold⟩
      · rfl
      · exact absurd hsame.symm (hothers k second hk hkon hold).2
    · rcases eq_of_getElem?_set hsecond with ⟨rfl, -, rfl⟩ | ⟨-, hold'⟩
      · exact absurd hsame (hothers j first hj hjon hold).2
      · exact h.apart j k first second hj hk hold hold' hsame

/-- The cursor of a parser is one of those that are kept. -/
theorem cursor_lt (h : Linked gone pool parsers) {k : Nat} {handle : Handle} (hk : ¬gone k)
    (hhandle : pool.handles[k]? = some handle) : handle.cursor < pool.cursors.length := by
  obtain ⟨s, -, hholds⟩ := h.holds k handle hk hhandle
  exact (List.getElem?_eq_some_iff.mp hholds.cursor).1

/-- One more parser and its copy come, with a new cursor. -/
theorem concat (h : Linked gone pool parsers) (s : Lookahead) :
    Linked gone ⟨pool.cursors ++ [s.cursor], pool.handles ++ [⟨pool.cursors.length, s.buffer⟩]⟩
      (parsers ++ [s]) where
  length := by simp [h.length]
  holds := by
    intro k handle hk hhandle
    rcases eq_of_getElem?_concat hhandle with ⟨rfl, rfl⟩ | ⟨hlt, hhandle⟩
    · exact ⟨s, by rw [h.length, List.getElem?_concat_length], List.getElem?_concat_length, rfl⟩
    · obtain ⟨t, ht, hholds⟩ := h.holds k handle hk hhandle
      refine ⟨t, by rw [List.getElem?_append_left (h.length ▸ hlt), ht], ?_, hholds.buffer⟩
      exact (List.getElem?_append_left (h.cursor_lt hk hhandle)).trans hholds.cursor
  apart := by
    intro j k first second hj hk hfirst hsecond hsame
    rcases eq_of_getElem?_concat hfirst with ⟨rfl, rfl⟩ | ⟨-, hfirst⟩
    · rcases eq_of_getElem?_concat hsecond with ⟨rfl, -⟩ | ⟨-, hsecond⟩
      · rfl
      · exact absurd hsame (Nat.ne_of_gt (h.cursor_lt hk hsecond))
    · rcases eq_of_getElem?_concat hsecond with ⟨rfl, rfl⟩ | ⟨-, hsecond⟩
      · exact absurd hsame (Nat.ne_of_lt (h.cursor_lt hj hfirst))
      · exact h.apart j k first second hj hk hfirst hsecond hsame

section

variable {on : Nat} {handle : Handle} (hon : ¬gone on) (hhandle : pool.handles[on]? = some handle)
include hon hhandle

/-- Another parser that is not gone has another cursor. -/
theorem cursor_ne (h : Linked gone pool parsers) {k : Nat} {other : Handle} (hk : ¬gone k)
    (hne : k ≠ on) (hother : pool.handles[k]? = some other) : other.cursor ≠ handle.cursor :=
  fun hsame => hne (h.apart k on other handle hk hon hother hhandle hsame)

/-- A parser that is not gone moves its cursor, and its copy goes with it. -/
theorem move (h : Linked gone pool parsers) (s : Lookahead) :
    Linked gone (pool.move on handle s) (parsers.set on s) := by
  refine h.replace ⟨List.getElem?_set_self (h.cursor_lt hon hhandle), rfl⟩
    fun k other hk hne hother => ?_
  have hcursor := h.cursor_ne hon hhandle hk hne hother
  exact ⟨List.getElem?_set_ne (Ne.symm hcursor), hcursor⟩

/-- A parser that is not gone goes on with a new cursor, and its copy goes with it. -/
theorem leave (h : Linked gone pool parsers) (left : Cursor) (s : Lookahead) :
    Linked gone (pool.leave on handle left s) (parsers.set on s) := by
  have hlength : (pool.cursors.set handle.cursor left).length = pool.cursors.length :=
    List.length_set
  refine h.replace ⟨?_, rfl⟩ fun k other hk hne hother => ?_
  · show (pool.cursors.set handle.cursor left ++ [s.cursor])[pool.cursors.length]? = some s.cursor
    rw [← hlength, List.getElem?_concat_length]
  · have hlt := h.cursor_lt hk hother
    have hcursor := h.cursor_ne hon hhandle hk hne hother
    refine ⟨?_, Nat.ne_of_lt hlt⟩
    show (pool.cursors.set handle.cursor left ++ [s.cursor])[other.cursor]? = _
    rw [List.getElem?_append_left (hlength ▸ hlt), List.getElem?_set_ne (Ne.symm hcursor)]

/-- The parser that is committed, or the one that takes the turn if there is no such parser, has
what the copy has that is committed. -/
theorem exists_committed (h : Linked gone pool parsers) {s : Lookahead}
    (hs : parsers[on]? = some s) {source : Nat} (hsource : ¬gone source) :
    ∃ k, ¬gone k ∧ (k = on ∨ k = source) ∧
      pool.handles[k]? = some (pool.handles.getD source handle) ∧
      pool.Holds (pool.handles.getD source handle) (parsers.getD source s) := by
  simp only [List.getD_eq_getElem?_getD]
  cases hfound : pool.handles[source]? with
  | none =>
    obtain ⟨t, ht, hholds⟩ := h.holds on handle hon hhandle
    obtain rfl := Option.some.inj (hs.symm.trans ht)
    rw [getElem?_eq_none_of_length_eq h.length hfound]
    exact ⟨on, hon, .inl rfl, hhandle, hholds⟩
  | some other =>
    obtain ⟨t, ht, hholds⟩ := h.holds source other hsource hfound
    rw [ht]
    exact ⟨source, hsource, .inr rfl, hfound, hholds⟩

/-- A parser goes on with the cursor of another one, which is gone then. Its copy goes to the place
of the copy of that one. -/
theorem commit (h : Linked gone pool parsers) {s : Lookahead} (hs : parsers[on]? = some s)
    {source : Nat} (hsource : ¬gone source) {gone' : Nat → Prop} (hmore : ∀ k, gone k → gone' k)
    (hgone : source ≠ on → gone' source) :
    Linked gone' ⟨pool.cursors, pool.handles.set on (pool.handles.getD source handle)⟩
      (parsers.set on (parsers.getD source s)) := by
  obtain ⟨k, hk, hor, hother, hholds⟩ := h.exists_committed hon hhandle hs hsource
  refine (h.mono hmore).replace ⟨hholds.cursor, hholds.buffer⟩ fun j third hj hne hthird => ?_
  refine ⟨rfl, fun hsame => ?_⟩
  -- Another parser with this cursor would be the one that is committed, and that one is gone.
  obtain rfl := h.apart j k third _ (mt (hmore j) hj) hk hthird hother hsame
  rcases hor with rfl | rfl
  · exact hne rfl
  · exact hj (hgone hne)

end

/-- A turn of a parser that is not gone gives the reply that its copy gives, and the parsers stay
copies, except the one that is committed. -/
theorem turn (h : Linked gone pool parsers) {turn : Turn} (huses : ∀ k, turn.Uses k → ¬gone k)
    {handle : Handle} {s : Lookahead} (hhandle : pool.handles[turn.on]? = some handle)
    (hs : parsers[turn.on]? = some s) :
    (turn.run handle pool).1 = (turn.step.run turn.on s parsers).1 ∧
      Linked (fun k => gone k ∨ turn.committed = some k) (turn.run handle pool).2
        (turn.step.run turn.on s parsers).2 := by
  have hon := huses turn.on (.inl rfl)
  obtain ⟨t, ht, hholds⟩ := h.holds _ handle hon hhandle
  obtain rfl := Option.some.inj (hs.symm.trans ht)
  have hlookahead := hholds.lookahead_eq
  have hmore : ∀ k, gone k → gone k ∨ turn.committed = some k := fun k => .inl
  obtain ⟨on, step, left⟩ := turn
  unfold Turn.run
  rw [hlookahead]
  cases step with
  | peek => exact ⟨rfl, (h.move hon hhandle _).mono hmore⟩
  | advance => exact ⟨rfl, (h.move hon hhandle _).mono hmore⟩
  | expect kind => exact ⟨rfl, (h.move hon hhandle _).mono hmore⟩
  | clone => exact ⟨congrArg Reply.clone h.length, (h.concat s).mono hmore⟩
  | commit source =>
    refine ⟨rfl, h.commit hon hhandle hs (huses source (.inr rfl)) hmore fun hne => .inr ?_⟩
    unfold Turn.committed
    exact if_neg hne
  | read production =>
    cases left with
    | none => exact ⟨rfl, (h.move hon hhandle _).mono hmore⟩
    | some left => exact ⟨rfl, (h.leave hon hhandle left _).mono hmore⟩

/-- A parser that is not gone sees what its copy sees. -/
theorem lookahead_getD (h : Linked gone pool parsers) {k : Nat} (hk : ¬gone k)
    (hlt : k < parsers.length) (handle : Handle) (s : Lookahead) :
    pool.lookahead (pool.handles.getD k handle) = parsers.getD k s := by
  have hfound := List.getElem?_eq_getElem (h.length ▸ hlt : k < pool.handles.length)
  obtain ⟨t, ht, hholds⟩ := h.holds k _ hk hfound
  rw [List.getD_eq_getElem?_getD, List.getD_eq_getElem?_getD, hfound, ht]
  exact hholds.lookahead_eq

/-- Parsers that are not used when they are gone give the replies that their copies give, and stay
copies, except those that are committed. -/
theorem run (h : Linked gone pool parsers) {turns : List Turn} (hturns : NotUsedAgain turns)
    (huses : ∀ turn ∈ turns, ∀ k, turn.Uses k → ¬gone k) :
    (pool.run turns).1 = runSteps parsers (turns.map Turn.plain) ∧
      Linked (fun k => gone k ∨ ∃ turn ∈ turns, turn.committed = some k) (pool.run turns).2
        (placesAfter parsers (turns.map Turn.plain)) := by
  -- Each commit adds to the parsers that are gone, so the induction is for any of these.
  induction turns generalizing gone pool parsers with
  | nil => exact ⟨rfl, h.mono fun k => .inl⟩
  | cons turn turns ih =>
    obtain ⟨hlater, hturns⟩ := List.pairwise_cons.mp hturns
    obtain ⟨huse, huses⟩ := List.forall_mem_cons.mp huses
    rw [List.map_cons, Turn.plain]
    cases hhandle : pool.handles[turn.on]? with
    | none =>
      have hs := getElem?_eq_none_of_length_eq h.length hhandle
      simp only [Pool.run, runSteps, placesAfter, hhandle, hs]
      exact ⟨trivial, h.mono fun k => .inl⟩
    | some handle =>
      obtain ⟨s, hs, -⟩ := h.holds _ handle (huse turn.on (.inl rfl)) hhandle
      obtain ⟨hreply, hlinked⟩ := h.turn huse hhandle hs
      have hlt : turn.on < (turn.step.run turn.on s parsers).2.length :=
        Nat.lt_of_lt_of_le (List.getElem?_eq_some_iff.mp hs).1 (turn.step.length_le_run _ _ _)
      -- The parser that has taken the turn is not gone, so what it sees next can be compared.
      have hself : ¬(gone turn.on ∨ turn.committed = some turn.on) := by
        rintro (hgone | hcommitted)
        · exact huse turn.on (.inl rfl) hgone
        · exact turn.committed_ne hcommitted rfl
      have hnext := hlinked.lookahead_getD hself hlt handle s
      obtain ⟨hreplies, hafter⟩ := ih hlinked hturns fun later hmem k hk => by
        rintro (hgone | hcommitted)
        · exact huses later hmem k hk hgone
        · exact hlater later hmem k hcommitted hk
      simp only [Pool.run, runSteps, placesAfter, hhandle, hs]
      refine ⟨by rw [hreply, hreplies, hnext]; rfl, hafter.mono fun k => ?_⟩
      rintro ((hgone | hcommitted) | ⟨later, hmem, hcommitted⟩)
      · exact .inl hgone
      · exact .inr ⟨turn, List.mem_cons_self, hcommitted⟩
      · exact .inr ⟨later, List.mem_cons_of_mem _ hmem, hcommitted⟩

/-- At the start one parser has the only cursor. -/
theorem start (source : String) :
    Linked (fun _ => False) (Pool.start source) [Lookahead.ofString source] where
  length := rfl
  holds := by
    intro k handle _ hhandle
    obtain ⟨rfl, rfl⟩ := eq_of_getElem?_singleton hhandle
    exact ⟨_, rfl, rfl, rfl⟩
  apart := by
    intro j k handle other _ _ hj hk _
    exact (eq_of_getElem?_singleton hj).1.trans (eq_of_getElem?_singleton hk).1.symm

end Linked

/-! ## Indices -/

/-- Parsers that are copied, and indices, at the start of a text. -/
theorem samePlaces_start (source : String) :
    SamePlaces Lookahead.StandsAt [Lookahead.ofString source] [(⟨0⟩ : Position source)] where
  length := rfl
  related := by
    intro k s p hs hp
    obtain ⟨rfl, rfl⟩ := eq_of_getElem?_singleton hs
    cases hp
    exact .behind ⟨0⟩

/-- Parsers on a text are indices into its tokens. When a commit copies, the replies to any steps
are those of indices, and every parser stays at its index. When a commit goes on with the cursor of
the other parser, and no parser is used again after it has been committed into another one, the
replies are those of indices as well. After any such turns every parser that is still in use is at
its index, and if it has a token in its buffer, then that is the one at the index, and the cursor
stands at the end of it. A further step moves no other index than that of the parser that takes it.
-/
theorem sharing_refines_positions (source : String) :
    (∀ steps, runSteps [Lookahead.ofString source] steps =
        runSteps [(⟨0⟩ : Position source)] steps ∧
      SamePlaces Lookahead.StandsAt (placesAfter [Lookahead.ofString source] steps)
        (placesAfter [(⟨0⟩ : Position source)] steps)) ∧
    ∀ turns, NotUsedAgain turns →
      let run := (Pool.start source).run turns
      let steps := turns.map Turn.plain
      let positions := placesAfter [(⟨0⟩ : Position source)] steps
      run.1 = runSteps [(⟨0⟩ : Position source)] steps ∧
      run.2.handles.length = positions.length ∧
      (∀ (k : Nat) handle, run.2.handles[k]? = some handle →
        (∀ turn ∈ turns, turn.committed ≠ some k) →
        ∃ cursor p, run.2.cursors[handle.cursor]? = some cursor ∧ positions[k]? = some p ∧
          Lookahead.StandsAt ⟨cursor, handle.buffer⟩ p ∧
          ∀ token, handle.buffer = some token →
            token = p.token ∧ cursor.source = source.toList ∧ cursor.pos = token.stop) ∧
      ∀ on step k, on ≠ k → k < positions.length →
        (placesAfter [(⟨0⟩ : Position source)] (steps ++ [(on, step)]))[k]? = positions[k]? := by
  have hcopies := runSteps_eq (Lookahead.sameTokens_standsAt source)
    Lookahead.read_simulates (samePlaces_start source)
  refine ⟨hcopies, fun turns hturns => ?_⟩
  obtain ⟨hreplies, hlinked⟩ := (Linked.start source).run hturns fun _ _ _ _ => not_false
  obtain ⟨heq, hplaces⟩ := hcopies (turns.map Turn.plain)
  refine ⟨hreplies.trans heq, hlinked.length.trans hplaces.length, fun k handle hhandle huse => ?_,
    fun on step k hne hk => placesAfter_concat _ _ step hne hk⟩
  have hk : ¬(False ∨ ∃ turn ∈ turns, turn.committed = some k) := by
    rintro (hfalse | ⟨turn, hturn, hcommitted⟩)
    · exact hfalse
    · exact huse turn hturn hcommitted
  -- The parser is the copy that has been followed, and that one is at its index.
  obtain ⟨s, hs, hholds⟩ := hlinked.holds k handle hk hhandle
  obtain ⟨p, hp, hstands⟩ := hplaces.exists_related hs
  refine ⟨s.cursor, p, hholds.cursor, hp, hholds.buffer ▸ hstands, fun token htoken => ?_⟩
  exact hstands.buffered (hholds.buffer ▸ htoken)

set_option maxRecDepth 4000 in
/-- A clone reads a sign with its operand and ends with the cursor of a clone of its own, which goes
over to the parser that it was made from. That one is at the end of the text then. -/
theorem sharing_refines_positions_negation :
    let minus : Token := ⟨.minus, "-", 0⟩
    let x : Token := ⟨.identifier, "x", 2⟩
    let y : Token := ⟨.identifier, "y", 4⟩
    let last : Token := ⟨.endOfFile, "", 5⟩
    let turns : List Turn := [⟨0, .peek, none⟩, ⟨0, .clone, none⟩,
      ⟨1, .read .factor, some ⟨"- x y".toList, 1⟩⟩, ⟨0, .commit 1, none⟩, ⟨0, .advance, none⟩,
      ⟨0, .expect .number, none⟩, ⟨0, .peek, none⟩]
    let run := (Pool.start "- x y").run turns
    NotUsedAgain turns ∧
      run.1 = [(.token minus, minus), (.clone 1, minus),
        (.tree (.call (.leaf minus) [.leaf x]), y), (.moved, y), (.token y, last),
        (.failed ⟨[.number], last⟩, last), (.token last, last)] ∧
      run.1 = runSteps [(⟨0⟩ : Position "- x y")] (turns.map Turn.plain) ∧
      run.2.handles[0]? = some ⟨2, some last⟩ ∧
      ∃ cursor, run.2.cursors[2]? = some cursor ∧
        Lookahead.StandsAt ⟨cursor, some last⟩ (⟨4⟩ : Position "- x y") ∧
        cursor.pos = last.stop := by
  intro minus x y last turns run
  have hturns : NotUsedAgain turns := by
    simp [NotUsedAgain, turns, Turn.committed, Turn.Uses]
  obtain ⟨hreplies, -, hplaces, -⟩ := (sharing_refines_positions "- x y").2 turns hturns
  have hhandle : run.2.handles[0]? = some ⟨2, some last⟩ := by rfl
  obtain ⟨cursor, p, hcursor, hp, hstands, hbuffer⟩ := hplaces 0 _ hhandle
    (by simp [turns, Turn.committed])
  obtain rfl : (⟨4⟩ : Position "- x y") = p := Option.some.inj hp
  exact ⟨hturns, by rfl, hreplies, hhandle, cursor, hcursor, hstands, (hbuffer last rfl).2.2⟩

/-- A parser that is used again after it has been committed moves the cursor of another one. -/
example :
    let a : Token := ⟨.identifier, "a", 0⟩
    let b : Token := ⟨.identifier, "b", 2⟩
    let turns : List Turn := [⟨0, .clone, none⟩, ⟨0, .commit 1, none⟩, ⟨1, .advance, none⟩,
      ⟨0, .peek, none⟩]
    ((Pool.start "a b").run turns).1.map Prod.snd = [a, a, b, b] ∧
      (runSteps [(⟨0⟩ : Position "a b")] (turns.map Turn.plain)).map Prod.snd = [a, a, b, a] := by
  decide +kernel

end LineCalc.Parser
