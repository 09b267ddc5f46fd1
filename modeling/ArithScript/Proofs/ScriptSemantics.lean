import ArithScript.Proofs.ScriptGrammar

/-!
# Running the script

An evaluator of the script with lexical scope. Variables live in frames, frames in a heap, and a
place of the program sees a chain of frames, the innermost first; a function keeps the chain of the
place where it was made. On entry to a function its frame gets all names that it declares, and a
name may not be used before its declaration has been run. Constants cannot be assigned to, and
arithmetic is for numbers only. What the operators do to numbers is left open (`arith`).

Evaluation is bounded by fuel. `WithFuel` says that something holds with any amount of fuel from
some amount on; the rules at the end are stated with it, one for each construct, and nothing else
about the evaluator is used later.
-/

set_option autoImplicit false

namespace ArithScript.Script

/-- What a term can stand for. A function keeps the chain of the place where it was made. -/
inductive Value where
  | undefined
  | number (value : Double)
  | function (parameters : List String) (body : List Stmt) (chain : List Nat)

/-- A variable. It has no value before its declaration has been run. -/
structure Variable where
  mutable : Bool
  value : Option Value

/-- The variables that were declared together, by name. -/
abbrev Frame := String → Option Variable

/-- All frames there have been, at their addresses. Frames are added and changed but never
removed. -/
abbrev Heap := List Frame

/-- The addresses of the frames around a place, the innermost first. -/
abbrev Chain := List Nat

/-- Why a script cannot be run to its end. -/
inductive Fault where
  | outOfFuel
  | malformed
  | unbound (name : String)
  | undeclared (name : String)
  | constant (name : String)
  | notNumber
  | notFunction

/-- The frame with another variable of a name. -/
def Frame.set (frame : Frame) (name : String) (var : Variable) : Frame :=
  fun other => if other = name then some var else frame other

/-- The variable of a name, with the address of its frame. -/
def Heap.find? (h : Heap) (name : String) : Chain → Option (Nat × Variable)
  | [] => none
  | a :: chain =>
    match h[a]? with
    | none => none
    | some frame =>
      match frame name with
      | some var => some (a, var)
      | none => h.find? name chain

/-- The heap with another variable of a name in the frame at an address. -/
def Heap.put (h : Heap) (a : Nat) (name : String) (var : Variable) : Heap :=
  h.modify a (·.set name var)

/-- The value of a name. The name `undefined` is bound outside of all frames. -/
def Heap.read (h : Heap) (chain : Chain) (name : String) : Except Fault Value :=
  match h.find? name chain with
  | some (_, ⟨_, some value⟩) => .ok value
  | some (_, ⟨_, none⟩) => .error (.undeclared name)
  | none => if name = Lowering.unresolved then .ok .undefined else .error (.unbound name)

/-- An assignment needs a variable that has been declared and may be changed. -/
def Heap.assign (h : Heap) (chain : Chain) (name : String) (value : Value) : Except Fault Heap :=
  match h.find? name chain with
  | some (a, ⟨true, some _⟩) => .ok (h.put a name ⟨true, some value⟩)
  | some (_, ⟨false, some _⟩) => .error (.constant name)
  | some (_, ⟨_, none⟩) => .error (.undeclared name)
  | none => .error (.unbound name)

/-- Runs the declaration of a name of the innermost frame. -/
def Heap.declare (h : Heap) (chain : Chain) (name : String) (value : Value) : Except Fault Heap :=
  match h.find? name (chain.take 1) with
  | some (a, var) => .ok (h.put a name ⟨var.mutable, some value⟩)
  | none => .error (.unbound name)

/-- The frame of parameters; what is not given is undefined. -/
def Frame.ofParameters : List String → List Value → Frame
  | [], _ => fun _ => none
  | name :: names, values =>
    (Frame.ofParameters names values.tail).set name ⟨true, some (values.headD .undefined)⟩

/-- The frame with the names that statements declare. -/
def Frame.withDeclared (frame : Frame) : List Stmt → Frame
  | [] => frame
  | .declare name :: body => (frame.set name ⟨true, none⟩).withDeclared body
  | .constant name _ :: body => (frame.set name ⟨false, none⟩).withDeclared body
  | _ :: body => frame.withDeclared body

/-- Arithmetic is for numbers: nothing is converted to one. -/
def Value.number? : Value → Except Fault Double
  | .number value => .ok value
  | _ => .error .notNumber

section Evaluation

/-- Evaluates terms from left to right. -/
def evalAll (eval : Term → Heap → Except Fault (Value × Heap)) :
    List Term → Heap → Except Fault (List Value × Heap)
  | [], h => .ok ([], h)
  | t :: ts, h => do
    let (v, h) ← eval t h
    let (vs, h) ← evalAll eval ts h
    return (v :: vs, h)

/-- Runs statements up to an answer. -/
def runBody (eval : Term → Heap → Except Fault (Value × Heap)) (chain : Chain) :
    List Stmt → Heap → Except Fault (Value × Heap)
  | [], h => .ok (.undefined, h)
  | .declare name :: body, h => do
    let h ← h.declare chain name .undefined
    runBody eval chain body h
  | .constant name t :: body, h => do
    let (v, h) ← eval t h
    let h ← h.declare chain name v
    runBody eval chain body h
  | .answer t :: _, h => eval t h
  | .evaluate t :: body, h => do
    let (_, h) ← eval t h
    runBody eval chain body h

/-- Applies a function, in a new frame. -/
def apply (eval : Chain → Term → Heap → Except Fault (Value × Heap)) (f : Value)
    (arguments : List Value) (h : Heap) : Except Fault (Value × Heap) :=
  match f with
  | .function parameters body chain =>
    -- the names that the body declares are there from the start, without values
    let frame := (Frame.ofParameters parameters arguments).withDeclared body
    runBody (eval (h.length :: chain)) (h.length :: chain) body (h ++ [frame])
  | _ => .error .notFunction

variable (arith : Operator → Double → Double → Double)

/-- Evaluates a term. -/
def eval : Nat → Chain → Term → Heap → Except Fault (Value × Heap)
  | 0, _, _, _ => .error .outOfFuel
  | fuel + 1, chain, t, h =>
    match t with
    | .number value => .ok (.number value, h)
    | .name name => do
      let v ← h.read chain name
      return (v, h)
    | .negate t => do
      let (v, h) ← eval fuel chain t h
      let x ← v.number?
      return (.number x.negate, h)
    | .binary o left right => do
      let (v, h) ← eval fuel chain left h
      let (w, h) ← eval fuel chain right h
      let x ← v.number?
      let y ← w.number?
      return (.number (arith o x y), h)
    | .assign name t => do
      let (v, h) ← eval fuel chain t h
      let h ← h.assign chain name v
      return (v, h)
    | .function parameters body => .ok (.function parameters body chain, h)
    | .call f arguments => do
      let (f, h) ← eval fuel chain f h
      let (vs, h) ← evalAll (eval fuel chain) arguments h
      apply (eval fuel) f vs h

/-- Runs a text: it has to be a function, which is called without arguments. -/
def run (L : Lexicon) (fuel : Nat) (text : String) : Except Fault Value :=
  match (tokens L text.toList).bind program? with
  | none => .error .malformed
  | some t => do
    let (f, h) ← eval arith fuel [] t []
    let (v, _) ← apply (eval arith fuel) f [] h
    return v

end Evaluation

/-! ## Rules

One rule for each construct, in the order of the evaluator. Fuel appears in none of them: a rule
takes enough of it for each part, and `WithFuel` takes the greatest of these amounts and one more.
The rules are all that the proof of meaning uses, so it neither unfolds the evaluator nor counts its
steps. -/

/-- Something holds with any amount of fuel from some amount on. -/
def WithFuel (P : Nat → Prop) : Prop := ∃ least, ∀ fuel, least ≤ fuel → P fuel

namespace WithFuel

variable {P Q : Nat → Prop}

/-- What holds with any fuel holds with enough of it. -/
theorem of_forall (h : ∀ fuel, P fuel) : WithFuel P := ⟨0, fun fuel _ => h fuel⟩

/-- Two things that need fuel hold together with the greater of the two amounts. -/
theorem and (hP : WithFuel P) (hQ : WithFuel Q) : WithFuel fun fuel => P fuel ∧ Q fuel := by
  obtain ⟨n, hP⟩ := hP
  obtain ⟨m, hQ⟩ := hQ
  exact ⟨max n m, fun fuel h => ⟨hP fuel (by omega), hQ fuel (by omega)⟩⟩

theorem mono (hP : WithFuel P) (h : ∀ fuel, P fuel → Q fuel) : WithFuel Q := by
  obtain ⟨n, hP⟩ := hP
  exact ⟨n, fun fuel hle => h fuel (hP fuel hle)⟩

/-- A step of the evaluator takes one of fuel. -/
theorem step (hP : WithFuel P) (h : ∀ fuel, P fuel → Q (fuel + 1)) : WithFuel Q := by
  obtain ⟨n, hP⟩ := hP
  refine ⟨n + 1, fun fuel hle => ?_⟩
  obtain ⟨fuel, rfl⟩ : ∃ k, fuel = k + 1 := ⟨fuel - 1, by omega⟩
  exact h fuel (hP fuel (by omega))

/-- What takes one step at most needs some fuel and nothing else. -/
theorem of_succ (h : ∀ fuel, Q (fuel + 1)) : WithFuel Q :=
  (of_forall fun _ => trivial).step fun fuel _ => h fuel

end WithFuel

section Rules

variable (arith : Operator → Double → Double → Double)

/-- A term has a value, and leaves a heap behind. -/
def Evaluates (chain : Chain) (t : Term) (h : Heap) (v : Value) (h' : Heap) : Prop :=
  WithFuel fun fuel => eval arith fuel chain t h = .ok (v, h')

/-- Terms have values, from left to right. -/
def EvaluatesAll (chain : Chain) (ts : List Term) (h : Heap) (vs : List Value) (h' : Heap) : Prop :=
  WithFuel fun fuel => evalAll (eval arith fuel chain) ts h = .ok (vs, h')

/-- Statements have an answer. -/
def Runs (chain : Chain) (body : List Stmt) (h : Heap) (v : Value) (h' : Heap) : Prop :=
  WithFuel fun fuel => runBody (eval arith fuel chain) chain body h = .ok (v, h')

/-- A function that is applied to values has an answer. -/
def Applies (f : Value) (vs : List Value) (h : Heap) (v : Value) (h' : Heap) : Prop :=
  WithFuel fun fuel => apply (eval arith fuel) f vs h = .ok (v, h')

variable {arith} {chain : Chain} {h h₁ h₂ h₃ : Heap} {v w : Value} {vs : List Value}

theorem evaluates_number (value : Double) :
    Evaluates arith chain (.number value) h (.number value) h :=
  WithFuel.of_succ fun _ => rfl

/-- A name stands for the value that is found along the chain. -/
theorem evaluates_name {name : String} (hread : h.read chain name = .ok v) :
    Evaluates arith chain (.name name) h v h :=
  WithFuel.of_succ fun _ => by
    rw [eval, hread]
    rfl

theorem evaluates_negate {t : Term} {x : Double} (ht : Evaluates arith chain t h (.number x) h₁) :
    Evaluates arith chain (.negate t) h (.number x.negate) h₁ :=
  ht.step fun fuel ht => by
    rw [eval, ht]
    rfl

/-- The left operand is evaluated first, and the right one in the heap that it leaves behind. -/
theorem evaluates_binary {o : Operator} {left right : Term} {x y : Double}
    (hleft : Evaluates arith chain left h (.number x) h₁)
    (hright : Evaluates arith chain right h₁ (.number y) h₂) :
    Evaluates arith chain (.binary o left right) h (.number (arith o x y)) h₂ :=
  (hleft.and hright).step fun fuel ⟨hleft, hright⟩ => by
    simp only [eval, hleft, hright, bind, Except.bind]
    rfl

/-- An assignment has the value that it assigns. -/
theorem evaluates_assign {name : String} {t : Term} (ht : Evaluates arith chain t h v h₁)
    (hassign : h₁.assign chain name v = .ok h₂) :
    Evaluates arith chain (.assign name t) h v h₂ :=
  ht.step fun fuel ht => by
    simp only [eval, ht, hassign, bind, Except.bind]
    rfl

/-- A function is made without running it, and remembers where. -/
theorem evaluates_function (parameters : List String) (body : List Stmt) :
    Evaluates arith chain (.function parameters body) h (.function parameters body chain) h :=
  WithFuel.of_succ fun _ => rfl

/-- What is called is evaluated before the arguments are. -/
theorem evaluates_call {f : Term} {arguments : List Term}
    (hf : Evaluates arith chain f h v h₁) (harguments : EvaluatesAll arith chain arguments h₁ vs h₂)
    (happly : Applies arith v vs h₂ w h₃) : Evaluates arith chain (.call f arguments) h w h₃ :=
  (hf.and (harguments.and happly)).step fun fuel ⟨hf, harguments, happly⟩ => by
    simp only [eval, hf, harguments, bind, Except.bind]
    exact happly

theorem evaluatesAll_nil : EvaluatesAll arith chain [] h [] h := .of_forall fun _ => rfl

theorem evaluatesAll_cons {t : Term} {ts : List Term} (ht : Evaluates arith chain t h v h₁)
    (hts : EvaluatesAll arith chain ts h₁ vs h₂) :
    EvaluatesAll arith chain (t :: ts) h (v :: vs) h₂ :=
  (ht.and hts).mono fun fuel ⟨ht, hts⟩ => by
    simp only [evalAll, ht, hts, bind, Except.bind]
    rfl

/-- The body runs in a new frame in front of the chain that the function keeps, not of the chain at
the call. -/
theorem applies_function {parameters : List String} {body : List Stmt}
    (hbody : Runs arith (h.length :: chain) body
      (h ++ [(Frame.ofParameters parameters vs).withDeclared body]) w h₁) :
    Applies arith (.function parameters body chain) vs h w h₁ := hbody

/-- A declaration gives the name its first value, and the statements behind it may use it. -/
theorem runs_declare {name : String} {body : List Stmt}
    (hdeclare : h.declare chain name .undefined = .ok h₁)
    (hbody : Runs arith chain body h₁ w h₂) : Runs arith chain (.declare name :: body) h w h₂ :=
  hbody.mono fun fuel hbody => by
    rw [runBody, hdeclare]
    exact hbody

theorem runs_constant {name : String} {t : Term} {body : List Stmt}
    (ht : Evaluates arith chain t h v h₁) (hdeclare : h₁.declare chain name v = .ok h₂)
    (hbody : Runs arith chain body h₂ w h₃) : Runs arith chain (.constant name t :: body) h w h₃ :=
  (ht.and hbody).mono fun fuel ⟨ht, hbody⟩ => by
    simp only [runBody, ht, hdeclare, bind, Except.bind]
    exact hbody

/-- Nothing behind an answer is run. -/
theorem runs_answer {t : Term} {body : List Stmt} (ht : Evaluates arith chain t h v h₁) :
    Runs arith chain (.answer t :: body) h v h₁ := ht

theorem runs_evaluate {t : Term} {body : List Stmt} (ht : Evaluates arith chain t h v h₁)
    (hbody : Runs arith chain body h₁ w h₂) : Runs arith chain (.evaluate t :: body) h w h₂ :=
  (ht.and hbody).mono fun fuel ⟨ht, hbody⟩ => by
    simp only [runBody, ht, bind, Except.bind]
    exact hbody

/-- A text runs to an answer if it is a program and the program is a function that has one. -/
theorem run_eq {L : Lexicon} {text : String} {ts : List Token} {t : Term}
    (htokens : tokens L text.toList = some ts) (hprogram : program? ts = some t)
    (ht : Evaluates arith [] t [] v h) (happly : Applies arith v [] h w h₁) :
    WithFuel fun fuel => run arith L fuel text = .ok w :=
  (ht.and happly).mono fun fuel ⟨ht, happly⟩ => by
    simp only [run, htokens, hprogram, Option.bind_some, ht, happly, bind, Except.bind]
    rfl

end Rules

/-! ## Heaps

While a term is evaluated frames are added and variables get their values. What a place of the
program could see before it can still see after (`Heap.Keeps`), with one exception that is named:
the variable that holds the last value is assigned to again and again. -/

section Heaps

variable {h h' h'' : Heap} {chain : Chain} {name : String} {a : Nat}

@[simp] theorem Frame.set_self (frame : Frame) (name : String) (var : Variable) :
    frame.set name var name = some var := if_pos rfl

@[simp] theorem Frame.set_ne (frame : Frame) {name other : String} (hne : other ≠ name)
    (var : Variable) : frame.set name var other = frame other := if_neg hne

/-- A variable that has a value can be read. -/
theorem read_of_find? {mutable : Bool} {v : Value}
    (hfind : h.find? name chain = some (a, ⟨mutable, some v⟩)) : h.read chain name = .ok v := by
  rw [Heap.read, hfind]

theorem getElem?_put_self {frame : Frame} (hframe : h[a]? = some frame) (var : Variable) :
    (h.put a name var)[a]? = some (frame.set name var) := by
  rw [Heap.put, List.getElem?_modify, hframe]
  simp

theorem getElem?_put_ne {b : Nat} (hne : a ≠ b) (var : Variable) :
    (h.put a name var)[b]? = h[b]? := by
  rw [Heap.put, List.getElem?_modify]
  simp [hne]

/-- A heap keeps another: its frames have no new names, and what has a value keeps it. One name is
not looked at. -/
def Heap.Keeps (apart : String) (h h' : Heap) : Prop :=
  ∀ (a : Nat) (frame : Frame), h[a]? = some frame →
    ∃ frame' : Frame, h'[a]? = some frame' ∧ ∀ name, name ≠ apart →
      (frame name = none → frame' name = none) ∧
      (∀ mutable v, frame name = some ⟨mutable, some v⟩ → frame' name = some ⟨mutable, some v⟩)

namespace Heap.Keeps

variable {apart : String}

/-- Keeping is transitive, so a run keeps what each of its steps keeps. -/
theorem trans (first : Keeps apart h h') (second : Keeps apart h' h'') : Keeps apart h h'' := by
  intro a frame hframe
  obtain ⟨frame', hframe', hkeep⟩ := first a frame hframe
  obtain ⟨frame'', hframe'', hkeep'⟩ := second a frame' hframe'
  refine ⟨frame'', hframe'', fun name hname => ⟨fun hnone => ?_, fun mutable v hsome => ?_⟩⟩
  · exact (hkeep' name hname).1 ((hkeep name hname).1 hnone)
  · exact (hkeep' name hname).2 mutable v ((hkeep name hname).2 mutable v hsome)

/-- A new frame comes behind the others and changes none of them. -/
theorem append (h frames : Heap) : Keeps apart h (h ++ frames) := by
  intro a frame hframe
  have hlt := (List.getElem?_eq_some_iff.mp hframe).1
  exact ⟨frame, by rw [List.getElem?_append_left hlt]; exact hframe,
    fun _ _ => ⟨id, fun _ _ => id⟩⟩

/-- Putting a variable keeps a heap if the name is not looked at, or had no value. -/
theorem put {frame : Frame} (hframe : h[a]? = some frame) (var : Variable)
    (hname : name = apart ∨ ∃ mutable, frame name = some ⟨mutable, none⟩) :
    Keeps apart h (h.put a name var) := by
  intro b other hother
  by_cases hab : a = b
  · subst hab
    rw [hframe] at hother
    cases hother
    refine ⟨frame.set name var, getElem?_put_self hframe var, fun n hn => ?_⟩
    -- only the variable that was put can have changed, and it had no value to lose
    by_cases heq : n = name
    · subst heq
      obtain ⟨mutable, hvar⟩ := hname.resolve_left hn
      rw [hvar]
      exact ⟨nofun, nofun⟩
    · rw [Frame.set_ne frame heq]
      exact ⟨id, fun _ _ => id⟩
  · exact ⟨other, by rw [getElem?_put_ne hab]; exact hother, fun _ _ => ⟨id, fun _ _ => id⟩⟩

/-- What has been found is found again. -/
theorem find? (hkeep : Keeps apart h h') (hname : name ≠ apart) {mutable : Bool} {v : Value}
    (hfind : h.find? name chain = some (a, ⟨mutable, some v⟩)) :
    h'.find? name chain = some (a, ⟨mutable, some v⟩) := by
  induction chain with
  | nil => cases hfind
  | cons b chain ih =>
    rw [Heap.find?] at hfind ⊢
    cases hframe : h[b]? with
    | none =>
      rw [hframe] at hfind
      cases hfind
    | some frame =>
      obtain ⟨frame', hframe', hkeep'⟩ := hkeep b frame hframe
      -- a frame that is passed over stays without the name, and the one that has it keeps the value
      obtain ⟨hnone, hsome⟩ := hkeep' name hname
      rw [hframe] at hfind
      rw [hframe']
      dsimp only at hfind ⊢
      cases hvar : frame name with
      | none =>
        rw [hvar] at hfind
        rw [hnone hvar]
        exact ih hfind
      | some var =>
        rw [hvar] at hfind
        cases hfind
        rw [hsome mutable v hvar]

end Heap.Keeps

end Heaps

end ArithScript.Script
