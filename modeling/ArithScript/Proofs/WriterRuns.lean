import ArithScript.Proofs.Fragment
import ArithScript.Trace.Program
import Mathlib.Logic.Relation

/-!
# Runs of a writer

Whatever uses a writer comes down to three operations: text is appended, a node is opened, the
innermost node is closed. `Moves` is one of them, `Reaches` any number of them. A program with its
callbacks goes through nothing else (`runLogged_reaches`), however deep the callbacks lie and
wherever they fail, and so does the writing of fragments (`Fragment.reaches_writeAll`). An invariant
of writers is therefore shown for the three operations, and then it holds at every moment of every
run.

The second half says what the operations do to the two things that invariants are about, the targets
of the nodes and the lists of their children.
-/

set_option autoImplicit false

namespace ArithScript.Trace

namespace Writer

/-- One operation on a writer. -/
inductive Moves : Writer → Writer → Prop where
  | append (s : String) (w : Writer) : Moves w (w.append s)
  | openNode (region : Region) (w : Writer) : Moves w (w.openNode region)
  | close {w : Writer} {id : Nat} (h : w.active.head? = some id) : Moves w (w.close id)

/-- Any number of operations, one after the other. -/
def Reaches : Writer → Writer → Prop := Relation.ReflTransGen Moves

theorem Reaches.refl (w : Writer) : w.Reaches w := Relation.ReflTransGen.refl

theorem Reaches.trans {u v w : Writer} (huv : u.Reaches v) (hvw : v.Reaches w) : u.Reaches w :=
  Relation.ReflTransGen.trans huv hvw

theorem Moves.reaches {v w : Writer} (h : Moves v w) : v.Reaches w := Relation.ReflTransGen.single h

/-- **What every operation keeps, every run keeps.** -/
theorem Reaches.invariant {P : Writer → Prop} (keep : ∀ v w, Moves v w → P v → P w) {v w : Writer}
    (h : v.Reaches w) (hv : P v) : P w := by
  induction h with
  | refl => exact hv
  | tail _ hmove ih => exact keep _ _ hmove ih

/-! ## Programs

A run stops where a node is closed that is not the innermost, and nothing is said of it from there
on. Of a run that has not stopped `Follows` says that its writer has been reached, and on the way
every writer that was logged. A callback that fails does not stop the run around it. -/

/-- A node is opened only for a source that is there. -/
theorem reaches_openIf (source : Option Region) (w : Writer) : w.Reaches (w.openIf source).2 := by
  cases source with
  | none => exact .refl w
  | some region => exact (Moves.openNode region w).reaches

/-- To close a node is allowed for the innermost one only, so a close that succeeds is one of the
three operations. -/
theorem reaches_closeIf? {id : Option Nat} {w w' : Writer} (h : w.closeIf? id = some w') :
    w.Reaches w' := by
  cases id with
  | none =>
    simp only [closeIf?, Option.some.injEq] at h
    subst h
    exact .refl w
  | some id =>
    simp only [closeIf?, close?] at h
    split at h
    · next hhead =>
      simp only [Option.some.injEq] at h
      subst h
      exact (Moves.close hhead).reaches
    · exact absurd h (by simp)

end Writer

namespace Progress

open Writer

/-- A state that a run comes to from a writer and a log: unless it has stopped, its writer is
reached, and so is every writer that was logged on the way, with the last still ahead of it. -/
def Follows (w : Writer) (log : List LogEntry) (p : Progress) : Prop :=
  ∀ w' log', p = (some w', log') →
    w.Reaches w' ∧ ∃ new, log' = new ++ log ∧
      ∀ e ∈ new, w.Reaches e.writer ∧ e.writer.Reaches w'

/-- Doing nothing reaches the writer that was there. -/
theorem follows_self (w : Writer) (log : List LogEntry) : Follows w log (some w, log) := by
  intro w' log' heq
  simp only [Prod.mk.injEq, Option.some.injEq] at heq
  obtain ⟨rfl, rfl⟩ := heq
  exact ⟨.refl _, [], rfl, fun e he => absurd he (by simp)⟩

/-- After an operation its writer is logged, and it is the writer that the run goes on with. -/
theorem follows_after {w v : Writer} (h : w.Reaches v) (own : Bool) (log : List LogEntry)
    (result : StepResult) : Follows w log (after own log result v) := by
  intro w' log' heq
  simp only [after, Prod.mk.injEq, Option.some.injEq] at heq
  obtain ⟨rfl, rfl⟩ := heq
  refine ⟨h, [⟨result, v, own⟩], rfl, ?_⟩
  intro e he
  rw [List.mem_singleton] at he
  subst he
  exact ⟨h, .refl _⟩

/-- A close out of order stops the run, and then there is nothing to show. -/
theorem follows_afterClose (id : Option Nat) (own : Bool) (w : Writer) (log : List LogEntry) :
    Follows w log (afterClose own log (w.closeIf? id)) := by
  cases hclose : w.closeIf? id with
  | none =>
    intro w' log' heq
    exact absurd heq (by simp [afterClose])
  | some v => exact follows_after (reaches_closeIf? hclose) own log .done

/-- Runs can be put one behind the other. If the first stops short, so do both. -/
theorem Follows.andThen {w : Writer} {log : List LogEntry} {p : Progress}
    {next : Writer → List LogEntry → Progress} (h : Follows w log p)
    (hnext : ∀ v log, Follows v log (next v log)) : Follows w log (p.andThen next) := by
  intro w' log' heq
  obtain ⟨writer, between⟩ := p
  cases writer with
  | none => exact absurd heq (by simp [Progress.andThen])
  | some v =>
    obtain ⟨hv, before, rfl, hbefore⟩ := h v between rfl
    obtain ⟨hw', new, rfl, hnew⟩ := hnext v _ w' log' heq
    refine ⟨hv.trans hw', new ++ before, by simp, ?_⟩
    intro e he
    rcases List.mem_append.mp he with he | he
    · exact ⟨hv.trans (hnew e he).1, (hnew e he).2⟩
    · exact ⟨(hbefore e he).1, (hbefore e he).2.trans hw'⟩

end Progress

open Progress

mutual

/-- By recursion over the steps and the callbacks inside them: each step does one of the three
operations, or runs what is inside it between two of them. -/
theorem Step.follows_run : ∀ (step : Step) (own : Bool) (w : Writer) (log : List LogEntry),
    Follows w log (step.run own w log)
  | .append text, own, w, log => by
    rw [Step.run]
    exact follows_after (Writer.Moves.append text w).reaches own log .done
  | .openNode source, own, w, log => by
    rw [Step.run]
    exact follows_after (w.reaches_openIf source) own log _
  | .close id, own, w, log => by
    rw [Step.run]
    exact follows_afterClose id own w log
  | .traced source steps, own, w, log => by
    rw [Step.run]
    refine (follows_after (w.reaches_openIf source) false log _).andThen fun v log => ?_
    refine (Step.follows_runAll steps own v log).andThen fun v log => ?_
    exact follows_afterClose _ own v log
  | .joinEach separator callbacks, own, w, log => by
    rw [Step.run]
    exact Step.follows_runEach separator callbacks own true w log
  | .runIf condition steps succeeds, own, w, log => by
    rw [Step.run]
    split
    · exact (Step.follows_runAll steps false w log).andThen fun v log =>
        follows_after (.refl v) own log _
    · exact follows_after (.refl w) own log _

theorem Step.follows_runAll : ∀ (steps : List Step) (own : Bool) (w : Writer) (log : List LogEntry),
    Follows w log (Step.runAll steps own w log)
  | [], own, w, log => by
    rw [Step.runAll]
    exact follows_self w log
  | step :: steps, own, w, log => by
    rw [Step.runAll]
    exact (Step.follows_run step own w log).andThen fun v log =>
      Step.follows_runAll steps own v log

theorem Step.follows_runEach (separator : String) :
    ∀ (callbacks : List (List Step × Bool)) (own first : Bool) (w : Writer) (log : List LogEntry),
      Follows w log (Step.runEach separator callbacks own first w log)
  | [], own, first, w, log => by
    rw [Step.runEach]
    exact follows_after (.refl w) own log _
  | (steps, succeeds) :: callbacks, own, first, w, log => by
    rw [Step.runEach]
    refine Follows.andThen ?_ fun v log => ?_
    · split
      · exact follows_self w log
      · exact follows_after (Writer.Moves.append separator w).reaches false log .done
    · refine (Step.follows_runAll steps false v log).andThen fun v log => ?_
      split
      · exact Step.follows_runEach separator callbacks own false v log
      -- a failed callback ends the step, and what it wrote stays
      · exact follows_after (.refl v) own log _

end

/-- **A program goes through operations only**: its last writer is reached from the empty one by way
of every writer in its log. -/
theorem runLogged_reaches {steps : List Step} {w : Writer} {log : List LogEntry}
    (h : runLogged steps = (some w, log)) :
    Writer.start.Reaches w ∧ ∀ e ∈ log, Writer.start.Reaches e.writer ∧ e.writer.Reaches w := by
  obtain ⟨hw, new, hlog, hnew⟩ := Step.follows_runAll steps true Writer.start [] w log h
  rw [List.append_nil] at hlog
  subst hlog
  exact ⟨hw, hnew⟩

end Trace

/-! ## Fragments

Fragments are written without a program around them. They close what they open, which is why writing
one is a run of the operations at all: `close` is an operation for the innermost node only. -/

namespace Fragment

open Trace

mutual

/-- Writing a fragment closes every node that it opens. -/
theorem active_write : ∀ (f : Fragment) (w : Writer), (f.write w).active = w.active
  | .text s, w => rfl
  | .marked none parts, w => active_writeAll parts w
  | .marked (some region) parts, w => by
    rw [write]
    show (writeAll parts (w.openNode region)).active.tail = w.active
    rw [active_writeAll parts]
    rfl

/-- Fragments side by side leave open what was open before them. -/
theorem active_writeAll : ∀ (fs : List Fragment) (w : Writer), (writeAll fs w).active = w.active
  | [], w => rfl
  | f :: fs, w => by rw [writeAll, active_writeAll fs, active_write f]

end

mutual

/-- Writing a fragment opens a node if it is marked, writes what is inside, and closes the same
node: by `active_write` it is the innermost one again. -/
theorem reaches_write : ∀ (f : Fragment) (w : Writer), w.Reaches (f.write w)
  | .text s, w => (Writer.Moves.append s w).reaches
  | .marked none parts, w => reaches_writeAll parts w
  | .marked (some region) parts, w => by
    rw [write]
    refine (Writer.Moves.openNode region w).reaches.trans ?_
    refine (reaches_writeAll parts (w.openNode region)).trans (Writer.Moves.close ?_).reaches
    rw [active_writeAll]
    rfl

/-- **Writing fragments** is a run of the writer. -/
theorem reaches_writeAll : ∀ (fs : List Fragment) (w : Writer), w.Reaches (writeAll fs w)
  | [], w => .refl w
  | f :: fs, w => by
    rw [writeAll]
    exact (reaches_write f w).trans (reaches_writeAll fs (f.write w))

end

end Fragment

/-! ## What the operations change -/

namespace Trace.Writer

/-- The targets of the nodes, by number. -/
def targets (w : Writer) : List Target := w.nodes.toList.map Node.target

/-- The tree of the nodes as they are. -/
def tree (w : Writer) : Tree := ⟨w.nodes⟩

@[simp] theorem length_targets (w : Writer) : w.targets.length = w.nodes.size := by
  simp [targets]

@[simp] theorem targets_append (s : String) (w : Writer) : (w.append s).targets = w.targets := rfl

@[simp] theorem tree_append (s : String) (w : Writer) : (w.append s).tree = w.tree := rfl

@[simp] theorem length_append (s : String) (w : Writer) :
    (w.append s).length = w.length + s.utf8ByteSize := by
  simp [length, append, String.utf8ByteSize_append]

@[simp] theorem length_openNode (region : Region) (w : Writer) :
    (w.openNode region).length = w.length := rfl

@[simp] theorem length_close (id : Nat) (w : Writer) : (w.close id).length = w.length := rfl

@[simp] theorem active_openNode (region : Region) (w : Writer) :
    (w.openNode region).active = w.nodes.size :: w.active := rfl

@[simp] theorem active_close (id : Nat) (w : Writer) : (w.close id).active = w.active.tail := rfl

@[simp] theorem targets_openNode (region : Region) (w : Writer) :
    (w.openNode region).targets = w.targets ++ [Target.point w.length w.position] :=
  map_openNode Node.target (fun _ _ => rfl) region w

@[simp] theorem targets_close (id : Nat) (w : Writer) :
    (w.close id).targets = w.targets.modify id (·.endAt w.length w.position) :=
  map_endTarget Node.target (·.endAt w.length w.position) w (fun _ => rfl) id

/-- Closing changes one target, and only its end. -/
theorem mem_targets_close {id : Nat} {w : Writer} {t : Target} (h : t ∈ (w.close id).targets) :
    ∃ s ∈ w.targets, t = s ∨ t = s.endAt w.length w.position := by
  obtain ⟨i, hi⟩ := List.mem_iff_getElem?.mp h
  rw [targets_close, List.getElem?_modify, Option.map_eq_map, Option.map_eq_some_iff] at hi
  obtain ⟨s, hs, rfl⟩ := hi
  refine ⟨s, List.mem_iff_getElem?.mpr ⟨i, hs⟩, ?_⟩
  by_cases hid : id = i
  · exact Or.inr (if_pos hid)
  · exact Or.inl (if_neg hid)

@[simp] theorem size_openNode (region : Region) (w : Writer) :
    (w.openNode region).nodes.size = w.nodes.size + 1 := by
  rw [← length_targets, targets_openNode]
  simp

@[simp] theorem size_close (id : Nat) (w : Writer) :
    (w.close id).nodes.size = w.nodes.size := by
  rw [← length_targets, targets_close]
  simp

/-- Ending a target leaves the children of every node alone. -/
@[simp] theorem children_endTarget (id : Nat) (w : Writer) (i : Nat) :
    (⟨w.endTarget id⟩ : Tree).children i = w.tree.children i := by
  simp only [Tree.children, Tree.node?, tree, endTarget, Array.getElem?_modify]
  by_cases hi : id = i
  · subst hi
    cases w.nodes[id]? <;> simp
  · simp [hi]

/-- **Opening a node** makes it the last child of the innermost open node, and gives it none. -/
theorem children_openNode {w : Writer} (hactive : ∀ p ∈ w.active, p < w.nodes.size)
    (region : Region) (i : Nat) :
    (w.openNode region).tree.children i
      = w.tree.children i ++ if w.active.head? = some i then [w.nodes.size] else [] := by
  -- the new node has no children, and there was no node of its number before
  have pushed :
      (⟨w.nodes.push ⟨some region, Target.point w.length w.position, #[]⟩⟩ : Tree).children i
      = w.tree.children i := by
    simp only [Tree.children, Tree.node?, tree, Array.getElem?_push]
    by_cases hi : i = w.nodes.size
    · simp [hi]
    · simp [hi]
  cases hstack : w.active with
  | nil =>
    rw [← pushed]
    simp [openNode, tree, hstack]
  | cons p rest =>
    have hp : p < w.nodes.size := hactive p (by simp [hstack])
    rw [← pushed]
    simp only [openNode, tree, hstack, Tree.children, Tree.node?, Array.getElem?_modify,
      List.head?_cons, Option.some.injEq]
    by_cases hi : p = i
    · subst hi
      simp [Array.getElem?_push, Nat.ne_of_lt hp, Array.getElem?_eq_getElem hp]
    · simp [hi]

end Trace.Writer

end ArithScript
