import ArithScript.Proofs.LoweredTerms
import ArithScript.Proofs.Meaning
import ArithScript.Proofs.ScriptSemantics

/-!
# Lowering preserves meaning

Running the script of a valid module gives the value of the module
(`Module.lower_preserves_meaning`). The text parses as the program of the module; what is left is to
run the program.

A value of the script represents what a name stands for in the module (`Represents`), and a chain of
frames an environment (`Models`). A function has to go on representing while the frame that it was
made in gets more values, so it is asked to work in every later heap. That later heaps keep what it
needs is the invariant: names other than the tracker get a value once. Expressions of a module
assign nothing, and only add frames behind a heap; so an expression is run by `evaluates_term` for
one heap, and statements by `runs_stmts`, which follows the heap from one to the next.

There is one double that comes through lowering changed: the numeral of a negative zero is `0`
(`Module.lower_merges_zeros`). A literal therefore stands for its double with both zeros made one.
-/

set_option autoImplicit false

namespace ArithScript

open Script

/-- What a script returns: the value of a module, or nothing. -/
def scriptValue : Option Double → Value
  | none => .undefined
  | some x => .number x

section Representation

variable (arith : Operator → Double → Double → Double)

/-- A value of the script represents, in a heap and from then on, what a name stands for. -/
def Represents (h : Heap) : Meaning → Value → Prop
  | .value x, v => v = .number x
  | .function f, v => ∀ h', h.Keeps Lowering.tracker h' → ∀ xs x, f xs = some x →
      ∃ frames, Applies arith v (xs.map .number) h' (.number x) (h' ++ frames)

/-- The frames of a chain hold what represents an environment. -/
def Models (h : Heap) (chain : Chain) (env : Environment) : Prop :=
  ∀ name meaning, env name = some meaning → name ≠ Lowering.tracker ∧
    ∃ a mutable v, h.find? name chain = some (a, ⟨mutable, some v⟩) ∧ Represents arith h meaning v

variable {arith}

theorem Represents.keep {h h' : Heap} (hkeep : h.Keeps Lowering.tracker h') {meaning : Meaning}
    {v : Value} (hv : Represents arith h meaning v) : Represents arith h' meaning v := by
  cases meaning with
  | value x => exact hv
  | function f => exact fun h'' hkeep' => hv h'' (hkeep.trans hkeep')

theorem Models.keep {h h' : Heap} (hkeep : h.Keeps Lowering.tracker h') {chain : Chain}
    {env : Environment} (henv : Models arith h chain env) : Models arith h' chain env := by
  intro name meaning hmeaning
  obtain ⟨hname, a, mutable, v, hfind, hv⟩ := henv name meaning hmeaning
  exact ⟨hname, a, mutable, v, hkeep.find? hname hfind, hv.keep hkeep⟩

theorem Models.append {h : Heap} {chain : Chain} {env : Environment}
    (henv : Models arith h chain env) (frames : Heap) : Models arith (h ++ frames) chain env :=
  henv.keep (.append h frames)

end Representation

/-! ## Expressions

An expression is run in a heap that models its environment. It has the value that the module gives
it, and leaves a heap behind in which more frames may lie but nothing else has changed. -/

section Expressions

variable {arith : Operator → Double → Double → Double} {known : String → Bool}

theorem evaluates_literal {x : Double} (hfinite : x.isFinite = true) {chain : Chain} {h : Heap} :
    Evaluates arith chain (literalTerm x) h (.number x.mergeZeros) h := by
  unfold literalTerm
  split
  · next hnegative =>
    rw [← Double.negate_abs hnegative]
    exact evaluates_negate (evaluates_number x.abs)
  · next hnegative =>
    rw [← Double.abs_eq_mergeZeros hfinite (by simpa using hnegative)]
    exact evaluates_number x.abs

mutual

/-- **The term of an expression has its value**, and leaves nothing behind but frames. -/
theorem evaluates_term {env : Environment} (hknown : ∀ name, env name ≠ none → known name = true) :
    ∀ (e : Expr) {x : Double} {chain : Chain} {h : Heap}, e.isFinite = true →
      e.evaluate arith Double.mergeZeros env = some x → Models arith h chain env →
      ∃ frames, Evaluates arith chain (e.term known) h (.number x) (h ++ frames)
  | .literal value _, x, chain, h, hfinite, hx, _ => by
    cases hx
    refine ⟨[], ?_⟩
    rw [List.append_nil]
    exact evaluates_literal hfinite
  | .binary o _ left right _, x, chain, h, hfinite, hx, henv => by
    rw [Expr.isFinite, Bool.and_eq_true] at hfinite
    rw [Expr.evaluate] at hx
    obtain ⟨y, hy, hx⟩ := Option.bind_eq_some_iff.mp hx
    obtain ⟨z, hz, hx⟩ := Option.bind_eq_some_iff.mp hx
    cases hx
    obtain ⟨frames, hleft⟩ := evaluates_term hknown left hfinite.1 hy henv
    -- the right operand runs in the heap that the left one leaves
    obtain ⟨more, hright⟩ := evaluates_term hknown right hfinite.2 hz (henv.append frames)
    rw [List.append_assoc] at hright
    exact ⟨frames ++ more, evaluates_binary hleft hright⟩
  | .call function arguments _, x, chain, h, hfinite, hx, henv => by
    rw [Expr.isFinite] at hfinite
    rw [Expr.evaluate] at hx
    cases hmeaning : env function.name with
    | none =>
      rw [hmeaning] at hx
      cases hx
    | some meaning =>
      obtain ⟨-, a, mutable, v, hfind, hv⟩ := henv _ _ hmeaning
      have hspelling : spelling known function.name = function.name :=
        if_pos (hknown _ (by simp [hmeaning]))
      have hname : Evaluates arith chain (.name function.name) h v h :=
        evaluates_name (read_of_find? hfind)
      rw [hmeaning] at hx
      rw [Expr.term, hspelling]
      cases meaning with
      | value y =>
        dsimp only at hx
        split at hx
        · next hempty =>
          cases hx
          rw [if_pos hempty]
          refine ⟨[], ?_⟩
          rw [List.append_nil, ← show v = .number x from hv]
          exact hname
        · cases hx
      | function f =>
        dsimp only at hx
        split at hx
        · cases hx
        · next hempty =>
          obtain ⟨xs, hxs, hx⟩ := Option.bind_eq_some_iff.mp hx
          obtain ⟨frames, harguments⟩ := evaluatesAll_terms hknown arguments hfinite hxs henv
          -- the function was read before the arguments ran, and is applied in the heap after them
          obtain ⟨more, happly⟩ := hv (h ++ frames) (.append h frames) xs x hx
          rw [List.append_assoc] at happly
          rw [if_neg hempty]
          exact ⟨frames ++ more, evaluates_call hname harguments happly⟩

theorem evaluatesAll_terms {env : Environment}
    (hknown : ∀ name, env name ≠ none → known name = true) :
    ∀ (es : List Expr) {xs : List Double} {chain : Chain} {h : Heap}, Expr.areFinite es = true →
      Expr.evaluateAll arith Double.mergeZeros env es = some xs → Models arith h chain env →
      ∃ frames, EvaluatesAll arith chain (Expr.terms known es) h (xs.map .number) (h ++ frames)
  | [], xs, chain, h, _, hxs, _ => by
    cases hxs
    refine ⟨[], ?_⟩
    rw [List.append_nil]
    exact evaluatesAll_nil
  | e :: es, xs, chain, h, hfinite, hxs, henv => by
    rw [Expr.areFinite, Bool.and_eq_true] at hfinite
    rw [Expr.evaluateAll] at hxs
    obtain ⟨y, hy, hxs⟩ := Option.bind_eq_some_iff.mp hxs
    obtain ⟨ys, hys, hxs⟩ := Option.bind_eq_some_iff.mp hxs
    cases hxs
    obtain ⟨frames, hfirst⟩ := evaluates_term hknown e hfinite.1 hy henv
    obtain ⟨more, hrest⟩ := evaluatesAll_terms hknown es hfinite.2 hys (henv.append frames)
    rw [List.append_assoc] at hrest
    exact ⟨frames ++ more, evaluatesAll_cons hfirst hrest⟩

end

end Expressions

/-! ## Functions

A function that is called gets a frame with its parameters, in front of the chain where it was made.
There the chain models the environment of the definition, with the parameters bound. -/

section Functions

variable {arith : Operator → Double → Double → Double} {known : String → Bool}

/-- A frame of parameters holds what the environment of their arguments binds, and nothing else. -/
theorem ofParameters_bind (env : Environment) (name : String) :
    ∀ {names : List String} {xs : List Double}, xs.length = names.length →
      (name ∈ names ∧ ∃ x, env.bind names xs name = some (.value x)
        ∧ Frame.ofParameters names (xs.map .number) name = some ⟨true, some (.number x)⟩)
      ∨ (env.bind names xs name = env name ∧ Frame.ofParameters names (xs.map .number) name = none)
  | [], [], _ => .inr ⟨rfl, rfl⟩
  | first :: names, x :: xs, hlength => by
    rw [Environment.bind, Environment.set, Frame.ofParameters]
    by_cases heq : name = first
    · subst heq
      exact .inl ⟨List.mem_cons_self, x, if_pos rfl, Frame.set_self _ _ _⟩
    · rw [if_neg heq, Frame.set_ne _ heq]
      rcases ofParameters_bind env name (by simpa using hlength) with ⟨hmem, hbound⟩ | hfree
      · exact .inl ⟨List.mem_cons_of_mem _ hmem, hbound⟩
      · exact .inr hfree

/-- In the frame of a call, parameters stand for arguments, and other names for what they did. -/
theorem Models.bind {h : Heap} {chain : Chain} {env : Environment} (henv : Models arith h chain env)
    {names : List String} (hnames : ∀ name ∈ names, name ≠ Lowering.tracker) {xs : List Double}
    (hlength : xs.length = names.length) :
    Models arith (h ++ [Frame.ofParameters names (xs.map .number)]) (h.length :: chain)
      (env.bind names xs) := by
  intro name meaning hmeaning
  have hframe : (h ++ [Frame.ofParameters names (xs.map .number)])[h.length]?
      = some (Frame.ofParameters names (xs.map .number)) := by simp
  rw [Heap.find?, hframe]
  rcases ofParameters_bind env name hlength with ⟨hmem, x, hx, hvar⟩ | ⟨hfree, hvar⟩
  · rw [hx] at hmeaning
    cases hmeaning
    exact ⟨hnames name hmem, h.length, true, .number x, by simp [hvar], rfl⟩
  · rw [hfree] at hmeaning
    obtain ⟨hname, a, mutable, v, hfind, hv⟩ :=
      henv.append [Frame.ofParameters names (xs.map .number)] name meaning hmeaning
    exact ⟨hname, a, mutable, v, by simp [hvar, hfind], hv⟩

/-- **The function of a definition represents what the definition stands for.** -/
theorem represents_function {h : Heap} {chain : Chain} {env : Environment}
    (henv : Models arith h chain env) {d : Definition}
    (hknown : ∀ name, env name ≠ none → known name = true)
    (hnames : ∀ p ∈ d.parameters, p.name ≠ Lowering.tracker) (hfinite : d.body.isFinite = true) :
    Represents arith h (.function (d.function arith Double.mergeZeros env))
      (.function (d.parameters.map (·.name)) [.answer (d.body.term (d.knows known))] chain) := by
  intro h' hkeep xs x hx
  unfold Definition.function at hx
  split at hx
  case isFalse => cases hx
  case isTrue hlength =>
    have hlength : xs.length = (d.parameters.map (·.name)).length := by simpa using hlength
    -- the frame of the call binds the parameters on top of the chain the function was made in
    have hinside := (henv.keep hkeep).bind (by simpa using hnames) hlength
    have hknown' : ∀ name, env.bind (d.parameters.map (·.name)) xs name ≠ none →
        d.knows known name = true := by
      intro name hname
      rw [Definition.knows, Bool.or_eq_true]
      rcases ofParameters_bind env name hlength with ⟨hmem, -⟩ | ⟨hfree, -⟩
      · left
        simpa using hmem
      · right
        rw [hfree] at hname
        exact hknown name hname
    obtain ⟨frames, hbody⟩ := evaluates_term hknown' d.body hfinite hx hinside
    rw [List.append_assoc] at hbody
    exact ⟨_, applies_function (runs_answer hbody)⟩

end Functions

/-! ## Statements

Statements run in one frame, which has all names from the start and gets their values one by one
(`Ready`). Definitions give a name its value, evaluations assign to the tracker. -/

section Statements

variable {arith : Operator → Double → Double → Double}

/-- The heap between two statements: in the frame of the module the tracker holds the last value,
the names of later definitions wait for theirs, and the earlier ones model the environment. -/
structure Ready (arith : Operator → Double → Double → Double) (h : Heap) (env : Environment)
    (last : Option Double) (later : List String) : Prop where
  frame : ∃ frame : Frame, h[0]? = some frame
    ∧ frame Lowering.tracker = some ⟨true, some (scriptValue last)⟩
    ∧ ∀ name ∈ later, frame name = some ⟨false, none⟩
  models : Models arith h [0] env

theorem find?_single {h : Heap} {a : Nat} {frame : Frame} {name : String} {var : Variable}
    (hframe : h[a]? = some frame) (hvar : frame name = some var) :
    h.find? name [a] = some (a, var) := by
  rw [Heap.find?, hframe]
  simp [hvar]

variable {h : Heap} {env : Environment} {last : Option Double} {later : List String}

theorem Ready.append (hready : Ready arith h env last later) (frames : Heap) :
    Ready arith (h ++ frames) env last later := by
  obtain ⟨frame, hframe, hrest⟩ := hready.frame
  have hlt := (List.getElem?_eq_some_iff.mp hframe).1
  exact ⟨⟨frame, by rw [List.getElem?_append_left hlt]; exact hframe, hrest⟩,
    hready.models.append frames⟩

theorem Ready.read (hready : Ready arith h env last later) :
    h.read [0] Lowering.tracker = .ok (scriptValue last) := by
  obtain ⟨frame, hframe, htracker, -⟩ := hready.frame
  exact read_of_find? (find?_single hframe htracker)

/-- A value is tracked. -/
theorem Ready.assign (hready : Ready arith h env last later) (htracker : Lowering.tracker ∉ later)
    (x : Double) : ∃ h', h.assign [0] Lowering.tracker (.number x) = .ok h'
      ∧ Ready arith h' env (some x) later := by
  obtain ⟨frame, hframe, hvalue, hlater⟩ := hready.frame
  refine ⟨h.put 0 Lowering.tracker ⟨true, some (.number x)⟩, ?_, ⟨_, getElem?_put_self hframe _,
    Frame.set_self _ _ _, fun name hname => ?_⟩, hready.models.keep (.put hframe _ (.inl rfl))⟩
  · rw [Heap.assign, find?_single hframe hvalue]
  · rw [Frame.set_ne _ (by rintro rfl; exact htracker hname)]
    exact hlater name hname

/-- A definition gets its value. -/
theorem Ready.declare {name : String} (hready : Ready arith h env last (name :: later))
    (hname : name ≠ Lowering.tracker) (hlater : name ∉ later) {meaning : Meaning} {v : Value}
    (hv : Represents arith h meaning v) : ∃ h', h.declare [0] name v = .ok h'
      ∧ Ready arith h' (env.set name meaning) last later := by
  obtain ⟨frame, hframe, hvalue, hwait⟩ := hready.frame
  have hvar := hwait name List.mem_cons_self
  have hkeep : h.Keeps Lowering.tracker (h.put 0 name ⟨false, some v⟩) :=
    .put hframe _ (.inr ⟨false, hvar⟩)
  have hframe' : (h.put 0 name ⟨false, some v⟩)[0]? = some (frame.set name ⟨false, some v⟩) :=
    getElem?_put_self hframe _
  refine ⟨h.put 0 name ⟨false, some v⟩, ?_, ⟨_, hframe', ?_, fun other hother => ?_⟩, ?_⟩
  · rw [Heap.declare, List.take_succ_cons, List.take_zero, find?_single hframe hvar]
  · rw [Frame.set_ne _ hname.symm]
    exact hvalue
  · rw [Frame.set_ne _ (by rintro rfl; exact hlater hother)]
    exact hwait other (List.mem_cons_of_mem _ hother)
  · intro other meaning' hmeaning
    unfold Environment.set at hmeaning
    split at hmeaning
    · next heq =>
      subst heq
      cases hmeaning
      exact ⟨hname, 0, false, v, find?_single hframe' (Frame.set_self _ _ _), hv.keep hkeep⟩
    · exact hready.models.keep hkeep other meaning' hmeaning

theorem tracker_not_mem_defines {ss : List Statement}
    (hnames : ∀ s ∈ ss, ∀ name ∈ s.names, name ≠ Lowering.tracker) :
    Lowering.tracker ∉ ss.flatMap Statement.defines := by
  rw [List.mem_flatMap]
  rintro ⟨s, hs, hdefines⟩
  cases s with
  | evaluation e => cases hdefines
  | definition d =>
    exact hnames _ hs d.name List.mem_cons_self (List.mem_singleton.mp hdefines).symm

theorem mem_append_of_set {env : Environment} {earlier : List String} (defined : String)
    (meaning : Meaning) (name : String) (hknown : ∀ name, env name ≠ none → name ∈ earlier)
    (hset : env.set defined meaning name ≠ none) : name ∈ earlier ++ [defined] := by
  unfold Environment.set at hset
  split at hset
  · next heq => simp [heq]
  · exact List.mem_append_left _ (hknown name hset)

/-- **The statements of a module run to its value.** -/
theorem runs_stmts {result : Option Double} : ∀ {ss : List Statement} {earlier : List String}
    {env : Environment} {last : Option Double} {h : Heap},
    evaluateStatements arith Double.mergeZeros env last ss = some result →
    Ready arith h env last (ss.flatMap Statement.defines) →
    (ss.flatMap Statement.defines).Nodup →
    (∀ s ∈ ss, ∀ name ∈ s.names, name ≠ Lowering.tracker) →
    (∀ s ∈ ss, s.expression.isFinite = true) →
    (∀ name, env name ≠ none → name ∈ earlier) →
    ∃ h', Runs arith [0] (stmts earlier ss ++ [.answer (.name Lowering.tracker)]) h
      (scriptValue result) h'
  | [], earlier, env, last, h, hvalue, hready, _, _, _, _ => by
    cases hvalue
    exact ⟨h, runs_answer (evaluates_name hready.read)⟩
  | .evaluation e :: ss, earlier, env, last, h, hvalue, hready, hnodup, hnames, hfinite,
      hknown => by
    have hnames' := fun s hs => hnames s (List.mem_cons_of_mem _ hs)
    have hfinite' := fun s hs => hfinite s (List.mem_cons_of_mem _ hs)
    rw [evaluateStatements] at hvalue
    obtain ⟨x, hx, hvalue⟩ := Option.bind_eq_some_iff.mp hvalue
    obtain ⟨frames, hterm⟩ := evaluates_term (fun name hname => decide_eq_true (hknown name hname))
      e.expression (hfinite _ List.mem_cons_self) hx hready.models
    obtain ⟨h₁, hassign, hready₁⟩ :=
      (hready.append frames).assign (tracker_not_mem_defines hnames) x
    obtain ⟨h', hruns⟩ := runs_stmts hvalue hready₁ hnodup hnames' hfinite'
      (fun name hname => List.mem_append_left [] (hknown name hname))
    exact ⟨h', runs_evaluate (evaluates_assign hterm hassign) hruns⟩
  | .definition d :: ss, earlier, env, last, h, hvalue, hready, hnodup, hnames, hfinite,
      hknown => by
    have hnames' := fun s hs => hnames s (List.mem_cons_of_mem _ hs)
    have hfinite' := fun s hs => hfinite s (List.mem_cons_of_mem _ hs)
    have hname := hnames _ List.mem_cons_self d.name List.mem_cons_self
    obtain ⟨hlater, hnodup'⟩ := List.nodup_cons.mp hnodup
    have hknown' := fun meaning name => mem_append_of_set d.name meaning name hknown
    have hspelled : ∀ name, env name ≠ none → decide (name ∈ earlier) = true :=
      fun name hset => decide_eq_true (hknown name hset)
    rw [evaluateStatements] at hvalue
    rw [stmts, Statement.stmt]
    cases hparameters : d.parameters.isEmpty with
    | true =>
      -- a constant passes through the tracker, so its value is the last one as well
      rw [if_pos hparameters] at hvalue
      obtain ⟨x, hx, hvalue⟩ := Option.bind_eq_some_iff.mp hvalue
      obtain ⟨frames, hterm⟩ := evaluates_term hspelled d.body (hfinite _ List.mem_cons_self) hx
        hready.models
      obtain ⟨h₁, hassign, hready₁⟩ :=
        (hready.append frames).assign (tracker_not_mem_defines hnames) x
      obtain ⟨h₂, hdeclare, hready₂⟩ := hready₁.declare hname hlater
        (show Represents arith h₁ (.value x) (.number x) from rfl)
      obtain ⟨h', hruns⟩ := runs_stmts hvalue hready₂ hnodup' hnames' hfinite' (hknown' _)
      exact ⟨h', runs_constant (evaluates_assign hterm hassign) hdeclare hruns⟩
    | false =>
      -- a function leaves the tracker as it is
      rw [if_neg (by simp [hparameters])] at hvalue
      have hfunction := represents_function hready.models hspelled
        (fun p hp => hnames _ List.mem_cons_self p.name
          (List.mem_cons_of_mem _ (List.mem_map_of_mem hp))) (hfinite _ List.mem_cons_self)
      obtain ⟨h₁, hdeclare, hready₁⟩ := hready.declare hname hlater hfunction
      obtain ⟨h', hruns⟩ := runs_stmts hvalue hready₁ hnodup' hnames' hfinite' (hknown' _)
      exact ⟨h', runs_constant (evaluates_function _ _) hdeclare hruns⟩

end Statements

/-! ## Modules

The frame of the program is made ready, the statements are run, and the answer is what the tracker
holds. -/

theorem withDeclared_of_not_mem {name : String} {body : List Stmt} (frame : Frame)
    (h : name ∉ declared body) : frame.withDeclared body name = frame name := by
  induction body generalizing frame with
  | nil => rfl
  | cons s body ih =>
    have hrest : name ∉ declared body := fun hmem => h (List.mem_append_right _ hmem)
    cases s with
    | declare other =>
      have hne : name ≠ other := fun heq => h (by simp [declared, heq])
      rw [Frame.withDeclared, ih _ hrest, Frame.set_ne _ hne]
    | constant other t =>
      have hne : name ≠ other := fun heq => h (by simp [declared, heq])
      rw [Frame.withDeclared, ih _ hrest, Frame.set_ne _ hne]
    | answer t => exact ih frame hrest
    | evaluate t => exact ih frame hrest

/-- The definitions of a module are declared as constants. -/
theorem withDeclared_stmts {name : String} {ss : List Statement} (answer : Term) (frame : Frame)
    (earlier : List String) (hname : name ∈ ss.flatMap Statement.defines) :
    frame.withDeclared (stmts earlier ss ++ [.answer answer]) name = some ⟨false, none⟩ := by
  induction ss generalizing frame earlier with
  | nil => cases hname
  | cons s ss ih =>
    by_cases hlater : name ∈ ss.flatMap Statement.defines
    · cases s <;> exact ih _ _ hlater
    · cases s with
      | evaluation e => exact absurd hname hlater
      | definition d =>
        have hfree : name ∉ declared (stmts (earlier ++ [d.name]) ss ++ [.answer answer]) := by
          rw [declared_append, declared_stmts]
          simpa [declared] using hlater
        obtain rfl : name = d.name := (List.mem_cons.mp hname).resolve_right hlater
        exact (withDeclared_of_not_mem (frame.set d.name ⟨false, none⟩) hfree).trans
          (Frame.set_self _ _ _)

/-- The heap of a module once its tracker is declared. -/
theorem exists_ready {arith : Operator → Double → Double → Double} {m : Module}
    (htracker : Lowering.tracker ∉ m.statements.flatMap Statement.defines) (answer : Term)
    (frame : Frame) :
    ∃ h, Heap.declare [frame.withDeclared (.declare Lowering.tracker
        :: (stmts [] m.statements ++ [.answer answer]))] [0] Lowering.tracker .undefined = .ok h
      ∧ Ready arith h (fun _ => none) none (m.statements.flatMap Statement.defines) := by
  have hfree : Lowering.tracker ∉ declared (stmts [] m.statements ++ [.answer answer]) := by
    rw [declared_append, declared_stmts]
    simpa [declared] using htracker
  have hvar : frame.withDeclared (.declare Lowering.tracker
      :: (stmts [] m.statements ++ [.answer answer])) Lowering.tracker = some ⟨true, none⟩ :=
    (withDeclared_of_not_mem _ hfree).trans (Frame.set_self _ _ _)
  have hlater : ∀ name ∈ m.statements.flatMap Statement.defines, frame.withDeclared
      (.declare Lowering.tracker :: (stmts [] m.statements ++ [.answer answer])) name
        = some ⟨false, none⟩ := fun name hname => withDeclared_stmts answer _ [] hname
  generalize frame.withDeclared (.declare Lowering.tracker
    :: (stmts [] m.statements ++ [.answer answer])) = entry at *
  have hentry : ([entry] : Heap)[0]? = some entry := rfl
  refine ⟨_, ?_, ⟨_, getElem?_put_self hentry ⟨true, some .undefined⟩, Frame.set_self _ _ _,
    fun name hname => ?_⟩, fun _ _ hmeaning => by cases hmeaning⟩
  · rw [Heap.declare, List.take_succ_cons, List.take_zero, find?_single hentry hvar]
  · rw [Frame.set_ne _ (by rintro rfl; exact htracker hname)]
    exact hlater name hname

/-- Lowering a module that is not too high gives its text. -/
theorem Module.exists_lower {m : Module} {maxDepth : ℕ}
    (hheight : ∀ s ∈ m.statements, s.expression.height ≤ maxDepth) :
    ∃ script tree, m.lower maxDepth = .ok (script, tree) ∧ script.toList = m.text := by
  have hmax : m.height ≤ maxDepth := Expr.maxHeight_le_iff.mpr (by simpa using hheight)
  refine ⟨_, _, (m.lower_eq maxDepth).trans (if_pos hmax), ?_⟩
  exact Fragment.chars_writeAll m.fragments Trace.Writer.start

/-- **The text of a valid module runs to its value.** -/
theorem Module.Valid.run {L : Lexicon} {m : Module} (hvalid : m.Valid L)
    {arith : Operator → Double → Double → Double} {result : Option Double}
    (hresult : m.evaluate arith Double.mergeZeros = some result) {script : String}
    (hscript : script.toList = m.text) :
    WithFuel fun fuel => Script.run arith L fuel script = .ok (scriptValue result) := by
  have hnames : ∀ s ∈ m.statements, ∀ name ∈ s.names, name ≠ Lowering.tracker :=
    fun s hs name hname => (hvalid.names_free s hs name hname).2.2
  have htracker := tracker_not_mem_defines hnames
  have htokens : Script.tokens L script.toList = some m.tokens := by
    rw [hscript]
    exact m.tokens_text (fun s hs name hname => (hvalid.names_free s hs name hname).1)
      hvalid.literals_finite
  have hprogram := m.program?_tokens hvalid.definitions_distinct htracker hvalid.parameters_distinct
  obtain ⟨h, hdeclare, hready⟩ := exists_ready htracker (.name Lowering.tracker)
    (Frame.ofParameters [] [])
  obtain ⟨h', hruns⟩ := runs_stmts hresult hready hvalid.definitions_distinct hnames
    hvalid.literals_finite (fun _ hnone => absurd rfl hnone)
  exact run_eq htokens hprogram (evaluates_function _ _)
    (applies_function (runs_declare hdeclare hruns))

/-- **Lowering preserves meaning.** The script of a valid module whose expressions are not too high
tokenizes, parses and runs without a fault, and returns the value of the module. A literal stands
for its double, a negative zero for zero. -/
theorem Module.lower_preserves_meaning {L : Lexicon} {m : Module} (hvalid : m.Valid L)
    {maxDepth : ℕ} (hheight : ∀ s ∈ m.statements, s.expression.height ≤ maxDepth) :
    ∃ script tree, m.lower maxDepth = .ok (script, tree) ∧
      ∀ arith : Operator → Double → Double → Double, ∃ result,
        m.evaluate arith Double.mergeZeros = some result ∧
        ∃ least, ∀ fuel, least ≤ fuel →
          Script.run arith L fuel script = .ok (scriptValue result) := by
  obtain ⟨script, tree, hlower, hscript⟩ := Module.exists_lower hheight
  refine ⟨script, tree, hlower, fun arith => ?_⟩
  obtain ⟨result, hresult⟩ := Module.exists_evaluate hvalid
  exact ⟨result, hresult, hvalid.run hresult hscript⟩

/-- The module `DEF a: 5; DEF f(x, a): (x - a) ^ -2; f(a, -1.5) * a;`, in which a parameter shadows
a definition. -/
def Module.shadowing : Module :=
  let a : Expr := .call ⟨"a", none⟩ [] none
  let x : Expr := .call ⟨"x", none⟩ [] none
  ⟨none, [.definition ⟨"a", none, [], .literal (.ofNat 5) none, none⟩,
    .definition ⟨"f", none, [⟨"x", none⟩, ⟨"a", none⟩],
      .binary .pow none (.binary .sub none x a none) (.literal (.ofInt (-2)) none) none, none⟩,
    .evaluation ⟨.binary .mul none
      (.call ⟨"f", none⟩ [a, .literal (Double.ofRatio 3 2).negate none] none) a none, none⟩]⟩

/-- The script of the sample returns `(5 - -1.5) ^ -2 * 5`, whatever the operators do. -/
theorem Module.lower_preserves_meaning_shadowing :
    Module.shadowing.Valid Lexicon.ascii ∧
    (∀ s ∈ Module.shadowing.statements, s.expression.height ≤ 3) ∧
    ∃ script tree, Module.shadowing.lower 3 = .ok (script, tree) ∧
      ∀ arith : Operator → Double → Double → Double, ∃ least, ∀ fuel, least ≤ fuel →
        Script.run arith Lexicon.ascii fuel script = .ok (.number (arith .mul
          (arith .pow (arith .sub (.ofNat 5) (Double.ofRatio 3 2).negate) (.ofInt (-2)))
          (.ofNat 5))) := by
  have hvalid : Module.shadowing.Valid Lexicon.ascii :=
    ⟨by decide, by simp [Module.shadowing], by decide, by decide, by decide⟩
  have hheight : ∀ s ∈ Module.shadowing.statements, s.expression.height ≤ 3 := by decide
  obtain ⟨script, tree, hlower, hmeaning⟩ := Module.lower_preserves_meaning hvalid hheight
  refine ⟨hvalid, hheight, script, tree, hlower, fun arith => ?_⟩
  obtain ⟨result, hresult, hrun⟩ := hmeaning arith
  have hvalue : Module.shadowing.evaluate arith Double.mergeZeros = some (some (arith .mul
      (arith .pow (arith .sub (.ofNat 5) (Double.ofRatio 3 2).negate) (.ofInt (-2)))
      (.ofNat 5))) := by
    have hfive : (Double.ofNat 5).mergeZeros = .ofNat 5 := by decide
    have hminus : (Double.ofRatio 3 2).negate.mergeZeros = (Double.ofRatio 3 2).negate := by decide
    have htwo : (Double.ofInt (-2)).mergeZeros = .ofInt (-2) := by decide
    show some (some (arith .mul (arith .pow (arith .sub (Double.ofNat 5).mergeZeros
      (Double.ofRatio 3 2).negate.mergeZeros) (Double.ofInt (-2)).mergeZeros)
      (Double.ofNat 5).mergeZeros)) = _
    rw [hfive, hminus, htwo]
  rw [hvalue] at hresult
  cases hresult
  exact hrun

/-- The quotient of finite doubles with its sign; of a quotient by zero, infinity. -/
def Double.signedQuotient (x y : Double) : Double :=
  ofMagnitude (x.signBit != y.signBit)
    (if y.isZero then infinityMagnitude else (x.div y).magnitude)

/-- The module `1 / -0;`. -/
def Module.overNegativeZero : Module :=
  ⟨none, [.evaluation ⟨.binary .div none (.literal (.ofNat 1) none)
    (.literal (Double.ofNat 0).negate none) none, none⟩]⟩

/-- **Lowering merges the zeros.** Dividing one by a negative zero gives negative infinity, and the
script of it returns infinity. -/
theorem Module.lower_merges_zeros :
    Module.overNegativeZero.Valid Lexicon.ascii ∧
    Module.overNegativeZero.evaluate (fun _ => Double.signedQuotient) id
      = some (some (.ofMagnitude true Double.infinityMagnitude)) ∧
    ∃ script tree, Module.overNegativeZero.lower 2 = .ok (script, tree) ∧
      (∃ least, ∀ fuel, least ≤ fuel →
        Script.run (fun _ => Double.signedQuotient) Lexicon.ascii fuel script
          = .ok (scriptValue (some (.ofMagnitude false Double.infinityMagnitude)))) ∧
      Double.ofMagnitude true Double.infinityMagnitude
        ≠ Double.ofMagnitude false Double.infinityMagnitude := by
  have hvalid : Module.overNegativeZero.Valid Lexicon.ascii :=
    ⟨by decide, by simp [Module.overNegativeZero], by decide, by decide, by decide⟩
  have hheight : ∀ s ∈ Module.overNegativeZero.statements, s.expression.height ≤ 2 := by decide
  obtain ⟨script, tree, hlower, hscript⟩ := Module.exists_lower hheight
  have hresult : Module.overNegativeZero.evaluate (fun _ => Double.signedQuotient) Double.mergeZeros
      = some (some (.ofMagnitude false Double.infinityMagnitude)) := by decide
  exact ⟨hvalid, by decide, script, tree, hlower, hvalid.run hresult hscript, by decide⟩

end ArithScript
