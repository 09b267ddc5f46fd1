import ArithScript.Proofs.DocumentForm
import ArithScript.Proofs.LinePositions
import ArithScript.Proofs.WriterRuns

/-!
# Positions kept by a writer

A writer keeps a position along with its text and copies it into the nodes that it opens and closes.
The text only grows, and a place of a text is the same place of every longer text. So a position
that was copied long ago is still the one that a line index of the final text finds, and it does not
matter how the text was cut into the pieces that were appended.
-/

set_option autoImplicit false

namespace ArithScript

open Text

/-- A byte offset is a place of a text, and going over the text up to it gives the position. -/
def IsPlace (text : List Char) (offset : Nat) (p : Position) : Prop :=
  ∃ before after, text = before ++ after ∧ offset = byteLength before
    ∧ p = Position.zero.advanceBy before

namespace IsPlace

variable {text : List Char} {offset : Nat} {p : Position}

/-- A place stays where it is when text is added. -/
theorem extend (h : IsPlace text offset p) {longer : List Char} (hinitial : text <+: longer) :
    IsPlace longer offset p := by
  obtain ⟨before, after, rfl, hoffset, hp⟩ := h
  obtain ⟨more, rfl⟩ := hinitial
  exact ⟨before, after ++ more, List.append_assoc .., hoffset, hp⟩

theorem position? (h : IsPlace text offset p) :
    (LineIndex.ofText text).position? offset = some p := by
  obtain ⟨before, after, rfl, rfl, rfl⟩ := h
  exact LineIndex.position?_append before after

theorem isBoundary (h : IsPlace text offset p) : Text.isBoundary text offset = true := by
  obtain ⟨before, after, rfl, rfl, -⟩ := h
  rw [Text.isBoundary, dropBytes?_append]
  rfl

theorem offset_le (h : IsPlace text offset p) : offset ≤ byteLength text := by
  obtain ⟨before, after, rfl, rfl, -⟩ := h
  rw [byteLength_append]
  exact Nat.le_add_right _ _

/-- **Later places have later positions.** -/
theorem compare_lt {offset' : Nat} {p' : Position} (h : IsPlace text offset p)
    (h' : IsPlace text offset' p') (hlt : offset < offset') : compare p p' = .lt := by
  obtain ⟨before, after, rfl, rfl, rfl⟩ := h
  obtain ⟨before', after', heq, rfl, rfl⟩ := h'
  rcases List.append_eq_append_iff.mp heq with ⟨between, rfl, -⟩ | ⟨between, rfl, -⟩
  · rw [Position.advanceBy_append]
    refine Position.compare_advanceBy _ fun hnil => ?_
    subst hnil
    simp at hlt
  · rw [byteLength_append] at hlt
    omega

theorem compare_isLE {offset' : Nat} {p' : Position} (h : IsPlace text offset p)
    (h' : IsPlace text offset' p') (hle : offset ≤ offset') : (compare p p').isLE = true := by
  rcases Nat.lt_or_eq_of_le hle with hlt | rfl
  · rw [h.compare_lt h' hlt]
    rfl
  · obtain rfl : p = p' := Option.some.inj (h.position?.symm.trans h'.position?)
    rw [show compare p p = .eq from Std.ReflCmp.compare_self]
    rfl

end IsPlace

/-- The places of a target have the positions that an index finds for them. -/
def Trace.Target.AgreesWith (t : Trace.Target) (index : LineIndex) : Prop :=
  index.position? t.offset = some t.range.start ∧ index.position? t.stop = some t.range.stop

namespace Trace.Writer

theorem byteLength_text (w : Writer) : byteLength w.text.toList = w.length :=
  byteLength_toList w.text

/-- The text of a writer only grows. -/
theorem Reaches.isPrefix {v w : Writer} (h : v.Reaches w) : v.text.toList <+: w.text.toList := by
  refine h.invariant (P := fun w => v.text.toList <+: w.text.toList) ?_ (List.prefix_refl _)
  intro u u' hmove hu
  cases hmove with
  | append s u =>
    simp only [append, String.toList_append]
    exact hu.trans (List.prefix_append _ _)
  | openNode region u => exact hu
  | close hhead => exact hu

/-- The positions that a writer holds are those of places of its text. -/
structure Placed (w : Writer) : Prop where
  position : w.position = Position.zero.advanceBy w.text.toList
  starts : ∀ t ∈ w.targets, IsPlace w.text.toList t.offset t.range.start
  stops : ∀ t ∈ w.targets, IsPlace w.text.toList t.stop t.range.stop

namespace Placed

variable {w : Writer}

theorem start : Writer.start.Placed := by
  have hzero : IsPlace [] 0 Position.zero := ⟨[], [], rfl, rfl, rfl⟩
  refine ⟨rfl, ?_, ?_⟩
  · intro t ht
    simp only [targets, Writer.start, List.map_cons, List.map_nil, List.mem_singleton] at ht
    subst ht
    exact hzero
  · intro t ht
    simp only [targets, Writer.start, List.map_cons, List.map_nil, List.mem_singleton] at ht
    subst ht
    exact hzero

/-- The end of the text is a place. -/
theorem here (h : w.Placed) : IsPlace w.text.toList w.length w.position :=
  ⟨w.text.toList, [], (List.append_nil _).symm, w.byteLength_text.symm, h.position⟩

theorem append (h : w.Placed) (s : String) : (w.append s).Placed := by
  have hinitial : w.text.toList <+: (w.append s).text.toList := by simp [Writer.append]
  refine ⟨?_, ?_, ?_⟩
  · simp [Writer.append, h.position]
  · intro t ht
    exact (h.starts t ht).extend hinitial
  · intro t ht
    exact (h.stops t ht).extend hinitial

theorem openNode (h : w.Placed) (region : Region) : (w.openNode region).Placed := by
  refine ⟨h.position, ?_, ?_⟩
  · intro t ht
    rw [targets_openNode, List.mem_append, List.mem_singleton] at ht
    rcases ht with ht | rfl
    · exact h.starts t ht
    · exact h.here
  · intro t ht
    rw [targets_openNode, List.mem_append, List.mem_singleton] at ht
    rcases ht with ht | rfl
    · exact h.stops t ht
    · exact h.here

/-- A target ends at the present place, whichever node it belongs to. -/
theorem close (h : w.Placed) (id : Nat) : (w.close id).Placed := by
  refine ⟨h.position, ?_, ?_⟩
  · intro t ht
    obtain ⟨s, hs, rfl | rfl⟩ := mem_targets_close ht
    · exact h.starts t hs
    · exact h.starts s hs
  · intro t ht
    obtain ⟨s, hs, rfl | rfl⟩ := mem_targets_close ht
    · exact h.stops t hs
    · exact h.here

/-- **Every operation keeps the positions right**, so they are right at every moment. -/
theorem of_reaches {v : Writer} (hv : v.Placed) (h : v.Reaches w) : w.Placed := by
  refine h.invariant ?_ hv
  intro u u' hmove hu
  cases hmove with
  | append s u => exact hu.append s
  | openNode region u => exact hu.openNode region
  | close hhead => exact hu.close _

/-- The positions of the nodes are those of a line index, of this text or of any that it grows
into. -/
theorem agrees (h : w.Placed) {text : List Char} (hinitial : w.text.toList <+: text) {node : Node}
    (hnode : node ∈ w.nodes) : node.target.AgreesWith (LineIndex.ofText text) := by
  have ht : node.target ∈ w.targets := List.mem_map_of_mem (Array.mem_toList_iff.mpr hnode)
  exact ⟨((h.starts _ ht).extend hinitial).position?, ((h.stops _ ht).extend hinitial).position?⟩

theorem fits (h : w.Placed) (hlength : w.length ≤ Json.Width.coordinate.max) : w.position.Fits := by
  have hcounts := Position.advanceBy_le w.text.toList
  rw [← h.position, w.byteLength_text] at hcounts
  exact ⟨Nat.le_trans hcounts.1 hlength, Nat.le_trans hcounts.2 hlength⟩

end Placed

end Trace.Writer

open Trace in
/-- **The positions of a writer agree with the line index.** Take any run that closes no node out of
order, and any moment of it: the beginning, or after an operation at any depth. The position of the
writer is then the one that the line index of its text finds at the end, and the positions of all
its nodes are those that the line index of the final text finds. So are those of the nodes of the
finished tree. As long as the final text is short enough for its offsets, every position fits its
width as well. -/
theorem Trace.runLogged_positions {steps : List Step} {w : Writer} {log : List LogEntry}
    (h : runLogged steps = (some w, log)) :
    (∀ v, v = Writer.start ∨ v ∈ log.map LogEntry.writer →
        (LineIndex.ofText v.text.toList).position? v.length = some v.position
          ∧ (w.length ≤ Json.Width.coordinate.max → v.position.Fits)
          ∧ ∀ node ∈ v.nodes, node.target.AgreesWith (LineIndex.ofText w.finish.1.toList))
      ∧ ∀ node ∈ w.finish.2.nodes, node.target.AgreesWith (LineIndex.ofText w.finish.1.toList) := by
  obtain ⟨hw, hlog⟩ := runLogged_reaches h
  have hplaced : w.Placed := Writer.Placed.start.of_reaches hw
  constructor
  · intro v hv
    have hmoment : Writer.start.Reaches v ∧ v.Reaches w := by
      rcases hv with rfl | hv
      · exact ⟨.refl _, hw⟩
      · obtain ⟨e, he, rfl⟩ := List.mem_map.mp hv
        exact hlog e he
    have hv : v.Placed := Writer.Placed.start.of_reaches hmoment.1
    -- the text of this moment is the beginning of the final text
    have hinitial := hmoment.2.isPrefix
    refine ⟨hv.here.position?, ?_, ?_⟩
    · intro hlength
      refine hv.fits (Nat.le_trans ?_ hlength)
      rw [← v.byteLength_text, ← w.byteLength_text]
      obtain ⟨more, hmore⟩ := hinitial
      rw [← hmore, byteLength_append]
      exact Nat.le_add_right _ _
    · intro node hnode
      exact hv.agrees hinitial hnode
  · intro node hnode
    exact (hplaced.close Tree.root).agrees (List.prefix_refl _) hnode

/-- A newline at the end of a piece, a character of two units, a callback that fails inside a node,
and a node that stays open. -/
def Trace.openSteps : List Trace.Step :=
  [.append "a\n", .openNode (some ⟨0, 1, none⟩),
    .traced (some ⟨2, 5, none⟩) [
      .joinEach ", " [([.append "é"], true), ([.traced none [.append "😀"]], false), ([], true)]],
    .append "b"]

open Trace in
theorem Trace.runLogged_positions_openSteps :
    ∃ w log, runLogged openSteps = (some w, log) ∧ w.text = "a\né, 😀b" ∧ w.position = ⟨1, 6⟩
      ∧ (LineIndex.ofText "a\né, 😀b".toList).position? 11 = some ⟨1, 6⟩
      ∧ (∀ v ∈ log.map LogEntry.writer, v.position.Fits)
      ∧ ∀ node ∈ w.finish.2.nodes, node.target.AgreesWith (LineIndex.ofText w.text.toList) := by
  obtain ⟨moments, final⟩ := runLogged_positions (show runLogged openSteps = (some _, _) from rfl)
  refine ⟨_, _, rfl, rfl, rfl, by decide, ?_, final⟩
  intro v hv
  exact (moments v (Or.inr hv)).2.1 (by decide)

end ArithScript
