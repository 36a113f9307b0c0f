import LineCalc.Builtin
import LineCalc.Number.Native
import LineCalc.Proofs.Evaluation.Lifting
import LineCalc.Proofs.Evaluation.Record
import LineCalc.Script

/-!
# Operands of lifted operators

An operator over functions is a function that calls its operands, and so on down to functions that
are not made of others: these occur in it from left to right (`Function.bases`). A call of the
whole invokes them in this order, each once and each with its own list of all the arguments, up to
the first that fails (`Function.Built.follows`), whatever they do to their lists. A host that keeps
a record of its calls tells which of them are made and what each of them gets
(`Function.invokeEach_watched`), and the list of the caller stays as it was
(`Function.call_eq_onWorld`).
-/

namespace LineCalc

variable {α β σ γ : Type}

/-! ## Functions and what they are made of -/

namespace Function

/-- A function is none that an operator makes of others. -/
def IsBase : Function β → Prop
  | .operator _ | .angle _ | .host _ => True
  | _ => False

/-- The functions that others are made of, from left to right. -/
def bases : Function β → List (Function β)
  | .unary _ f => f.bases
  | .binary _ f g => f.bases ++ g.bases
  | .binaryLeft _ f _ => f.bases
  | .binaryRight _ _ g => g.bases
  | f => [f]

/-- A function that is made of no others is all that it is made of. -/
theorem IsBase.bases {b : Function β} (h : b.IsBase) : b.bases = [b] := by
  cases b <;> first | rfl | cases h

/-- What a function is made of is not made of others. -/
theorem isBase_of_mem_bases {f b : Function β} (h : b ∈ f.bases) : b.IsBase := by
  induction f with
  | operator op => rw [List.mem_singleton.mp h]; trivial
  | angle f => rw [List.mem_singleton.mp h]; trivial
  | host c => rw [List.mem_singleton.mp h]; trivial
  | unary op f ih => exact ih h
  | binary op f g ihf ihg => exact (List.mem_append.mp h).elim ihf ihg
  | binaryLeft op f y ih => exact ih h
  | binaryRight op x g ih => exact ih h

end Function

/-! ## The list of the caller -/

/-- A call leaves the list of its arguments as it is, whether or not it fails. -/
def Call.Keeps (call : Call β σ α) : Prop :=
  ∀ frame, match call frame with
    | .ok _ after => after.arguments = frame.arguments
    | .error _ after => after.arguments = frame.arguments

namespace Call

/-- A call with its own copy of the arguments leaves them as they are. -/
theorem Keeps.isolated (call : Call β σ α) : Keeps (isolated call) := by
  intro frame
  unfold Call.isolated
  cases call frame <;> rfl

/-- Nothing happens to the arguments where a result is looked for. -/
theorem Keeps.ofOption (values : List (Value β)) (v? : Option (Value β)) :
    Keeps (ofOption values v? : Call β σ (Value β)) := by
  intro frame
  cases v? <;> rfl

/-- Two calls one after the other leave the arguments as they are if each of them does. -/
theorem Keeps.bind {call : Call β σ α} {k : α → Call β σ γ} (h : Keeps call)
    (hk : ∀ a, Keeps (k a)) : Keeps (call >>= k) := by
  intro frame
  have hfirst := h frame
  rw [Evaluation.bind_apply]
  cases hcall : call frame with
  | error e middle =>
    rw [hcall] at hfirst
    exact hfirst
  | ok a middle =>
    rw [hcall] at hfirst
    have hsecond := hk a middle
    rw [hfirst] at hsecond
    exact hsecond

/-- A call that leaves its arguments as they are changes only the world. -/
theorem Keeps.eq_onWorld {call : Call β σ α} (h : Keeps call) (frame : Frame β σ) :
    call frame = onWorld (run call frame.arguments) frame := by
  obtain ⟨arguments, w⟩ := frame
  have hkeeps := h ⟨arguments, w⟩
  unfold onWorld run
  cases hcall : call ⟨arguments, w⟩ with
  | ok a after =>
    rw [hcall] at hkeeps
    rw [← hkeeps]
  | error e after =>
    rw [hcall] at hkeeps
    rw [← hkeeps]

end Call

section Numerics

variable [Numerics]

/-! ## Functions that operators make -/

/-- What an operator makes of operands is a function if one of these is, and then it is lifted over
those that are. -/
theorem Operator.eval?_eq_function {op : Operator} {operands : List (Value β)} {f : Function β}
    (h : op.eval? operands = some (.function f)) :
    (∃ g g', operands = [.function g, .function g'] ∧ f = .binary op g g') ∨
      (∃ g y, operands = [.function g, .number y] ∧ f = .binaryLeft op g y) ∨
      (∃ x g, operands = [.number x, .function g] ∧ f = .binaryRight op x g) ∨
      ∃ g, op.isSign ∧ operands = [.function g] ∧ f = .unary op g := by
  unfold Operator.eval? at h
  split at h
  · cases h
  · next g g' =>
    cases h
    exact .inl ⟨g, g', rfl, rfl⟩
  · next x g =>
    cases h
    exact .inr (.inr (.inl ⟨x, g, rfl, rfl⟩))
  · next g y =>
    cases h
    exact .inr (.inl ⟨g, y, rfl, rfl⟩)
  · obtain ⟨sign, -, hsign⟩ := Option.map_eq_some_iff.mp h
    cases hsign
  · next g =>
    obtain ⟨sign, hsome, hsign⟩ := Option.map_eq_some_iff.mp h
    cases hsign
    exact .inr (.inr (.inr ⟨g, op.isSome_unary? ▸ Option.isSome_of_eq_some hsome, rfl, rfl⟩))
  · cases h

namespace Function

/-- A function is made by operators, on any number of levels, of functions that are not. -/
inductive Built : Function β → Prop
  | base {f : Function β} (h : f.IsBase) : Built f
  | lift {op : Operator} {operands : List (Value β)} {f : Function β}
    (h : op.eval? operands = some (.function f))
    (hoperands : ∀ g, .function g ∈ operands → Built g) : Built f

/-- What holds of functions that are made of no others, and of those that operators make of
functions that it holds of, holds of all that operators make. -/
theorem Built.induction {P : Function β → Prop} (base : ∀ b, b.IsBase → P b)
    (unary : ∀ op f, op.isSign → P f → P (.unary op f))
    (binary : ∀ op f g, P f → P g → P (.binary op f g))
    (binaryLeft : ∀ op f y, P f → P (.binaryLeft op f y))
    (binaryRight : ∀ op x g, P g → P (.binaryRight op x g)) {f : Function β} (h : f.Built) :
    P f := by
  induction h with
  | @base f h => exact base f h
  | @lift op operands f h _ ih =>
    rcases Operator.eval?_eq_function h with ⟨g, g', rfl, rfl⟩ | ⟨g, y, rfl, rfl⟩ |
      ⟨x, g, rfl, rfl⟩ | ⟨g, hsign, rfl, rfl⟩
    · exact binary op g g' (ih g (by simp)) (ih g' (by simp))
    · exact binaryLeft op g y (ih g (by simp))
    · exact binaryRight op x g (ih g (by simp))
    · exact unary op g hsign (ih g (by simp))

/-- The values of the functions that another one is made of are put together by its operators. -/
inductive Combines : Function β → List (Value β) → Value β → Prop
  | base {b : Function β} (h : b.IsBase) (v : Value β) : Combines b [v] v
  | unary {op : Operator} {f : Function β} {vs : List (Value β)} {v result : Value β}
    (hf : Combines f vs v) (h : op.eval? [v] = some result) : Combines (.unary op f) vs result
  | binary {op : Operator} {f g : Function β} {us vs : List (Value β)} {u v result : Value β}
    (hf : Combines f us u) (hg : Combines g vs v) (h : op.eval? [u, v] = some result) :
    Combines (.binary op f g) (us ++ vs) result
  | binaryLeft {op : Operator} {f : Function β} {y : Binary64} {vs : List (Value β)}
    {v result : Value β} (hf : Combines f vs v) (h : op.eval? [v, .number y] = some result) :
    Combines (.binaryLeft op f y) vs result
  | binaryRight {op : Operator} {x : Binary64} {g : Function β} {vs : List (Value β)}
    {v result : Value β} (hg : Combines g vs v) (h : op.eval? [.number x, v] = some result) :
    Combines (.binaryRight op x g) vs result

/-! ## From left to right -/

/-- Functions invoked one after the other, each with its own list of the same arguments. -/
def invokeEach (host : Host β σ) (arguments : List (Value β)) (fs : List (Function β)) :
    Evaluation β σ (List (Value β)) :=
  fs.mapM fun f => f.invoke host arguments

section

variable {host : Host β σ} {arguments : List (Value β)}

/-- The first of some functions is invoked, and then the others. -/
theorem invokeEach_cons (f : Function β) (fs : List (Function β)) :
    invokeEach host arguments (f :: fs) =
      f.invoke host arguments >>= fun v =>
        invokeEach host arguments fs >>= fun vs => pure (v :: vs) := by
  unfold invokeEach
  rw [List.mapM_cons]

/-- Some functions are invoked, and then some others. -/
theorem invokeEach_append (fs gs : List (Function β)) :
    invokeEach host arguments (fs ++ gs) =
      invokeEach host arguments fs >>= fun us =>
        invokeEach host arguments gs >>= fun vs => pure (us ++ vs) := by
  unfold invokeEach
  rw [List.mapM_append]

/-- A function invokes some others one after the other and puts their values together, or fails as
the first of them that does. -/
def Follows (host : Host β σ) (arguments : List (Value β)) (bs : List (Function β))
    (f : Function β) : Prop :=
  ∀ w, match invokeEach host arguments bs w with
    | .ok vs w' => ∃ v, f.Combines vs v ∧ f.invoke host arguments w = .ok v w'
    | .error e w' => f.invoke host arguments w = .error e w'

/-- A function that is made of no others follows itself. -/
theorem Follows.base {b : Function β} (h : b.IsBase) : Follows host arguments [b] b := by
  intro w
  rw [invokeEach_cons, Evaluation.bind_apply]
  cases hinvoke : b.invoke host arguments w with
  | ok v w' => exact ⟨v, .base h v, rfl⟩
  | error e w' => rfl

/-- An operator over one function, possibly with a number at its side, follows what that follows. -/
theorem Follows.operand {op : Operator} {f g : Function β} {bs : List (Function β)}
    {beside : Value β → List (Value β)} (hg : Follows host arguments bs g)
    (hf : f.invoke host arguments = g.invoke host arguments >>= fun v =>
      Evaluation.ofOption (beside v) (op.eval? (beside v)))
    (hresult : ∀ v, ∃ r, op.eval? (beside v) = some r)
    (hcombines : ∀ {vs v r}, g.Combines vs v → op.eval? (beside v) = some r → f.Combines vs r) :
    Follows host arguments bs f := by
  intro w
  have hw := hg w
  rw [hf, Evaluation.bind_apply]
  cases hvs : invokeEach host arguments bs w with
  | error e w' =>
    rw [hvs] at hw
    simp only [hw]
  | ok vs w' =>
    rw [hvs] at hw
    obtain ⟨v, hv, hw⟩ := hw
    obtain ⟨r, hr⟩ := hresult v
    simp only [hw, hr]
    exact ⟨r, hcombines hv hr, rfl⟩

/-- An operator over two functions follows what the first one follows, and then what the second one
does. -/
theorem Follows.binary (op : Operator) {f g : Function β} {bs cs : List (Function β)}
    (hf : Follows host arguments bs f) (hg : Follows host arguments cs g) :
    Follows host arguments (bs ++ cs) (.binary op f g) := by
  intro w
  have hleft := hf w
  rw [invokeEach_append, Evaluation.bind_apply, invoke_binary, Evaluation.bind_apply]
  cases hus : invokeEach host arguments bs w with
  | error e w' =>
    rw [hus] at hleft
    simp only [hleft]
  | ok us w' =>
    rw [hus] at hleft
    obtain ⟨u, hu, hleft⟩ := hleft
    have hright := hg w'
    simp only [hleft, Evaluation.bind_apply]
    cases hvs : invokeEach host arguments cs w' with
    | error e w'' =>
      rw [hvs] at hright
      simp only [hright]
    | ok vs w'' =>
      rw [hvs] at hright
      obtain ⟨v, hv, hright⟩ := hright
      obtain ⟨r, hr⟩ := op.exists_eval?_two u v
      simp only [hright, hr]
      exact ⟨r, .binary hu hv hr, rfl⟩

/-- A function that is made by operators follows those that it is made of. -/
theorem Built.follows {f : Function β} (h : f.Built) : Follows host arguments f.bases f := by
  refine Built.induction (P := fun f => Follows host arguments f.bases f)
    ?base ?unary ?binary ?binaryLeft ?binaryRight h
  case base =>
    intro b hb
    rw [hb.bases]
    exact .base hb
  case unary =>
    intro op g hsign ih
    exact ih.operand (invoke_unary host arguments op g)
      (fun v => Operator.exists_eval?_one hsign v) .unary
  case binary => exact fun op g g' ih ih' => .binary op ih ih'
  case binaryLeft =>
    intro op g y ih
    exact ih.operand (invoke_binaryLeft host arguments op g y)
      (fun v => op.exists_eval?_two v _) .binaryLeft
  case binaryRight =>
    intro op x g ih
    exact ih.operand (invoke_binaryRight host arguments op x g)
      (fun v => op.exists_eval?_two _ v) .binaryRight

end

end Function

/-! ## What a host is asked for -/

/-- The host that puts the calls of its functions on record, with the arguments that they get. -/
def Host.watched (host : Host β σ) : Host β (Record β σ) := fun b frame =>
  let events := frame.world.events ++ [.invoke (.host b) frame.arguments]
  match host b ⟨frame.arguments, frame.world.world⟩ with
  | .ok v after => .ok v ⟨after.arguments, ⟨after.world, events⟩⟩
  | .error failure after => .error failure ⟨after.arguments, ⟨after.world, events⟩⟩

namespace Function

/-- The event of invoking a function of the host. -/
def events (arguments : List (Value β)) : Function β → List (Event β)
  | .host b => [.invoke (.host b) arguments]
  | _ => []

section

variable (host : Host β σ) (arguments : List (Value β))

omit [Numerics] in
/-- An evaluation without effects on the world is on record when no event is. -/
theorem watched_ofOption (values : List (Value β)) (v? : Option (Value β)) :
    Evaluation.watched [] (Evaluation.ofOption values v? : Evaluation β σ (Value β)) =
      Evaluation.ofOption values v? := by
  funext record
  unfold Evaluation.watched
  rw [List.append_nil]
  cases v? <;> rfl

/-- The invocation of a function of the host is put on record. -/
theorem invoke_host_watched (b : β) :
    (Function.host b).invoke host.watched arguments =
      Evaluation.watched [.invoke (.host b) arguments]
        ((Function.host b).invoke host arguments) := by
  funext record
  rw [invoke_eq_run, invoke_eq_run]
  show Call.run (host.watched b) arguments record =
    Evaluation.watched _ (Call.run (host b) arguments) record
  unfold Call.run Host.watched Evaluation.watched
  dsimp only
  cases host b ⟨arguments, record.world⟩ <;> rfl

/-- The invocation of a function that is made of no others is put on record, if it is one of the
host. -/
theorem IsBase.invoke_watched {b : Function β} (h : b.IsBase) :
    b.invoke host.watched arguments =
      Evaluation.watched (b.events arguments) (b.invoke host arguments) := by
  cases b with
  | operator op =>
    rw [invoke_operator, invoke_operator]
    exact (watched_ofOption _ _).symm
  | angle f =>
    rw [invoke_angle, invoke_angle]
    exact (watched_ofOption _ _).symm
  | host b => exact invoke_host_watched host arguments b
  | _ => cases h

/-- Functions that are invoked one after the other are put on record up to the first that fails. -/
theorem invokeEach_watched : ∀ {bs : List (Function β)} (_ : ∀ b ∈ bs, b.IsBase)
    (record : Record β σ),
    match invokeEach host.watched arguments bs record with
    | .ok vs after => after.events = record.events ++ bs.flatMap (events arguments) ∧
      invokeEach host arguments bs record.world = .ok vs after.world
    | .error e after => ∃ done b rest vs middle, bs = done ++ b :: rest ∧
      after.events = record.events ++ (done ++ [b]).flatMap (events arguments) ∧
      invokeEach host arguments done record.world = .ok vs middle ∧
      b.invoke host arguments middle = .error e after.world
  | [], _, record => ⟨(List.append_nil _).symm, rfl⟩
  | b :: bs, h, record => by
    have hb := (h b List.mem_cons_self).invoke_watched host arguments
    have hcons := @invokeEach_cons β σ _ host arguments b
    rw [invokeEach_cons, Evaluation.bind_apply, hb, Evaluation.watched]
    -- Either the first one fails, or the record of the others goes on from its event.
    cases hfirst : b.invoke host arguments record.world with
    | error e w =>
      refine ⟨[], b, bs, [], record.world, rfl, ?_, rfl, hfirst⟩
      rw [List.nil_append, List.flatMap_singleton]
    | ok v w =>
      dsimp only
      rw [Evaluation.bind_apply]
      have ih := invokeEach_watched (fun c hc => h c (List.mem_cons_of_mem b hc))
        ⟨w, record.events ++ b.events arguments⟩
      cases hrest : invokeEach host.watched arguments bs
        ⟨w, record.events ++ b.events arguments⟩ with
      | ok vs after =>
        rw [hrest] at ih
        obtain ⟨hevents, hvs⟩ := ih
        refine ⟨?_, ?_⟩
        · show after.events = _
          rw [hevents, List.flatMap_cons, List.append_assoc]
        · rw [hcons, Evaluation.bind_apply, hfirst]
          dsimp only
          rw [Evaluation.bind_apply, hvs]
          rfl
      | error e after =>
        rw [hrest] at ih
        obtain ⟨done, c, rest, vs, middle, rfl, hevents, hdone, hc⟩ := ih
        refine ⟨b :: done, c, rest, v :: vs, middle, rfl, ?_, ?_, hc⟩
        · show after.events = _
          rw [hevents, List.cons_append, List.flatMap_cons, List.append_assoc]
        · rw [hcons, Evaluation.bind_apply, hfirst]
          dsimp only
          rw [Evaluation.bind_apply, hdone]
          rfl

/-- A function whose host keeps a record is the same function without the record. -/
theorem invoke_forgets (f : Function β) :
    Evaluation.Forgets (f.invoke host.watched arguments) (f.invoke host arguments) := by
  induction f with
  | operator op =>
    rw [invoke_operator, invoke_operator]
    exact .ofOption _ _
  | angle f =>
    rw [invoke_angle, invoke_angle]
    exact .ofOption _ _
  | host b =>
    rw [invoke_host_watched]
    exact .watched _ _
  | unary op f ih =>
    rw [invoke_unary, invoke_unary]
    exact ih.bind fun _ => .ofOption _ _
  | binary op f g ihf ihg =>
    rw [invoke_binary, invoke_binary]
    exact ihf.bind fun _ => ihg.bind fun _ => .ofOption _ _
  | binaryLeft op f y ih =>
    rw [invoke_binaryLeft, invoke_binaryLeft]
    exact ih.bind fun _ => .ofOption _ _
  | binaryRight op x g ih =>
    rw [invoke_binaryRight, invoke_binaryRight]
    exact ih.bind fun _ => .ofOption _ _

end

end Function

/-! ## The whole call -/

/-- A function that an operator makes of others changes only the world, whatever its operands do to
their arguments. -/
theorem Function.call_eq_onWorld {op : Operator} {operands : List (Value β)} {f : Function β}
    (h : op.eval? operands = some (.function f)) (host : Host β σ) (frame : Frame β σ) :
    f.call host frame = Call.onWorld (f.invoke host frame.arguments) frame := by
  have hkeeps : Call.Keeps (f.call host) := by
    rcases Operator.eval?_eq_function h with ⟨g, g', -, rfl⟩ | ⟨g, y, -, rfl⟩ | ⟨x, g, -, rfl⟩ |
      ⟨g, -, -, rfl⟩
    · exact (Call.Keeps.isolated _).bind fun _ =>
        (Call.Keeps.isolated _).bind fun _ => .ofOption _ _
    · exact (Call.Keeps.isolated _).bind fun _ => .ofOption _ _
    · exact (Call.Keeps.isolated _).bind fun _ => .ofOption _ _
    · exact (Call.Keeps.isolated _).bind fun _ => .ofOption _ _
  rw [hkeeps.eq_onWorld, invoke_eq_run]

namespace Function

/-- A function that an operator makes of others invokes all that it is made of from left to right,
each once and with a list of its own that is the one of the caller, and puts their values together.
Or it fails as the first of these that does, and then no later one is invoked. The list of the
caller stays as it is. -/
theorem call_lifted {op : Operator} {operands : List (Value β)} {f : Function β}
    (hf : op.eval? operands = some (.function f))
    (hoperands : ∀ g, .function g ∈ operands → g.Built) (host : Host β σ)
    (xs : List (Value β)) (w : σ) :
    (∀ b ∈ f.bases, b.IsBase) ∧
      match f.call host.watched ⟨xs, ⟨w, []⟩⟩ with
      | .ok v after =>
        f.call host ⟨xs, w⟩ = .ok v ⟨xs, after.world.world⟩ ∧
          after.arguments = xs ∧ after.world.events = f.bases.flatMap (events xs) ∧
          ∃ vs, invokeEach host xs f.bases w = .ok vs after.world.world ∧ f.Combines vs v
      | .error e after =>
        f.call host ⟨xs, w⟩ = .error e ⟨xs, after.world.world⟩ ∧
          after.arguments = xs ∧
          ∃ done b rest vs middle, f.bases = done ++ b :: rest ∧
            after.world.events = (done ++ [b]).flatMap (events xs) ∧
            invokeEach host xs done w = .ok vs middle ∧
            b.invoke host xs middle = .error e after.world.world := by
  have hbases : ∀ b ∈ f.bases, b.IsBase := fun b hb => isBase_of_mem_bases hb
  refine ⟨hbases, ?_⟩
  have hbuilt : f.Built := .lift hf hoperands
  -- The record tells what is invoked, and without it the call is the one that the host makes.
  have hfollows := (hbuilt.follows : Follows host.watched xs f.bases f) ⟨w, []⟩
  have hwatched := invokeEach_watched host xs hbases ⟨w, []⟩
  have hforgets := invoke_forgets host xs f ⟨w, []⟩
  -- Both calls work on the world alone, so the list of the caller is the same after them.
  rw [call_eq_onWorld hf, call_eq_onWorld hf, Call.onWorld, Call.onWorld]
  dsimp only at hforgets ⊢
  rw [← hforgets]
  cases hbs : invokeEach host.watched xs f.bases ⟨w, []⟩ with
  | ok vs record =>
    rw [hbs] at hfollows hwatched
    obtain ⟨v, hcombines, hv⟩ := hfollows
    obtain ⟨hevents, hvs⟩ := hwatched
    rw [hv]
    exact ⟨rfl, rfl, hevents, vs, hvs, hcombines⟩
  | error e record =>
    rw [hbs] at hfollows hwatched
    rw [hfollows]
    exact ⟨rfl, rfl, hwatched⟩

end Function

end Numerics

namespace Function

open Native

/-- In the sum of two functions that each remove the last argument both get all of the arguments,
and the caller has all of them afterwards. -/
theorem call_lifted_pop_add_pop :
    let pop : Function Script := .host .pop
    let xs : List (Value Script) := [.number Builtin.pi, .number Builtin.tau]
    ∃ v after, (Function.binary .add pop pop).call Script.host.watched
        ⟨xs, ⟨⟨Builtin.operatorTable, []⟩, []⟩⟩ = .ok v after ∧
      v = .number (Operator.add.binary Builtin.tau Builtin.tau) ∧ after.arguments = xs ∧
      after.world.events = [.invoke pop xs, .invoke pop xs] := by
  intro pop xs
  have hoperands : ∀ g, Value.function g ∈ [Value.function pop, Value.function pop] → g.Built := by
    intro g hg
    obtain rfl : g = pop := by simpa using hg
    exact .base trivial
  obtain ⟨-, -, hkeeps, hevents, -⟩ := call_lifted (f := .binary .add pop pop) rfl
    hoperands Script.host xs ⟨Builtin.operatorTable, []⟩
  exact ⟨_, _, rfl, rfl, hkeeps, hevents⟩

end Function

end LineCalc
