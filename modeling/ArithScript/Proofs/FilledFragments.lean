import ArithScript.Proofs.FragmentConditions

/-!
# No marked stretch is empty

Every piece of text that lowering writes has at least one character, if the names of definitions and
parameters do. A name that is only referred to does not matter: it is written as it is when it is
that of a definition or a parameter, and as a placeholder otherwise. So every marked stretch of a
module has a character in it, and its node begins before it ends.
-/

set_option autoImplicit false

namespace ArithScript

open Lowering Text

namespace Fragment

/-- A fragment without empty texts, whatever its marks are. -/
abbrev Filled : Fragment → Prop := Meets (· ≠ "") (fun _ _ => True) none

variable {marks : Option Region → Region → Prop} {outer : Option Region}

theorem byteLength_allChars_pos {parts : List Fragment} (h : parts ≠ [])
    (each : ∀ part ∈ parts, 0 < byteLength part.chars) : 0 < byteLength (allChars parts) := by
  cases parts with
  | nil => exact absurd rfl h
  | cons part parts =>
    have := each part List.mem_cons_self
    rw [allChars_cons, byteLength_append]
    omega

theorem Meets.byteLength_pos {f : Fragment} (h : Meets (· ≠ "") marks outer f) :
    0 < byteLength f.chars := by
  induction h with
  | @text _ s h =>
    have hne : s.toList ≠ [] := fun hnil => h (String.toList_eq_nil_iff.mp hnil)
    exact Nat.lt_of_lt_of_le (List.length_pos_iff.mpr hne) (length_le_byteLength s.toList)
  | marked hmark hparts each ih => exact byteLength_allChars_pos hparts ih

theorem mem_outlineAll {fs : List Fragment} {start : Nat} {o : Outline}
    (h : o ∈ outlineAll start fs) : ∃ f ∈ fs, ∃ start, o ∈ f.outline start := by
  induction fs generalizing start with
  | nil => simp [outlineAll] at h
  | cons f fs ih =>
    rw [outlineAll, List.mem_append] at h
    rcases h with h | h
    · exact ⟨f, List.mem_cons_self, start, h⟩
    · obtain ⟨g, hg, rest⟩ := ih h
      exact ⟨g, List.mem_cons_of_mem _ hg, rest⟩

/-- **The nodes of a filled fragment** begin before they end. -/
theorem Meets.outline_lt {f : Fragment} (h : Meets (· ≠ "") marks outer f) :
    ∀ start, ∀ o ∈ f.outline start, o.offset < o.stop := by
  induction h with
  | text h =>
    intro start o ho
    simp [outline] at ho
  | @marked outer source parts hmark hparts each ih =>
    intro start o ho
    have hinner : o ∈ outlineAll start parts → o.offset < o.stop := by
      intro ho
      obtain ⟨part, hpart, start, ho⟩ := mem_outlineAll ho
      exact ih part hpart start o ho
    cases source with
    | none => exact hinner ho
    | some region =>
      rw [outline, List.mem_cons] at ho
      rcases ho with rfl | ho
      · have := byteLength_allChars_pos hparts fun part hpart => (each part hpart).byteLength_pos
        simp only
        omega
      · exact hinner ho

end Fragment

open Fragment

/-- The names of a definition and of its parameters are not empty. -/
def Definition.Named (d : Definition) : Prop := d.name ≠ "" ∧ ∀ p ∈ d.parameters, p.name ≠ ""

/-- The names of all definitions and parameters of a module are not empty. -/
def Module.Named (m : Module) : Prop := ∀ d, Statement.definition d ∈ m.statements → d.Named

/-- **The marked text of a named module has no empty pieces.** -/
theorem Module.filled_fragments {m : Module} (h : m.Named) : ∀ part ∈ m.fragments, part.Filled :=
  meets_fragments (fun _ hword => hword)
    (placed_of_regions (P := fun _ => True) (fun _ _ _ _ => trivial) fun _ _ => trivial) h

end ArithScript
