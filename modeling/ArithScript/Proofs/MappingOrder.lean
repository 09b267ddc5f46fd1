import ArithScript.SourceMap.Builder

/-!
# The order of mappings

Mappings are compared by generated place, source, origin and name, in this order. The comparison is
a linear order, and two mappings compare equal only if they are equal; the last fields are there for
that. So sorting and leaving out what repeats the mapping before it gives the one strictly ascending
list with the given members, and that is what a source map holds.
-/

set_option autoImplicit false

namespace ArithScript

open Std

instance : TransOrd Position :=
  inferInstanceAs (TransCmp (compareLex (compareOn Position.line) (compareOn Position.character)))

instance : LawfulEqOrd Position where
  eq_of_compare {p q} h := by
    obtain ⟨hline, hcharacter⟩ := compareLex_eq_eq.mp
      (show compareLex (compareOn Position.line) (compareOn Position.character) p q = .eq from h)
    have hline : p.line = q.line := LawfulEqCmp.eq_of_compare hline
    have hcharacter : p.character = q.character := LawfulEqCmp.eq_of_compare hcharacter
    cases p
    cases q
    cases hline
    cases hcharacter
    rfl

namespace Mapping

/-- The order of names is that of optional texts. -/
theorem compareNames_eq (a b : Option String) : compareNames a b = compare a b := by
  cases a <;> cases b <;> rfl

theorem compare_eq :
    (compare : Mapping → Mapping → Ordering)
      = compareLex (compareOn generated)
          (compareLex (compareOn source) (compareLex (compareOn origin) (compareOn name))) := by
  funext a b
  show (compare a.generated b.generated).then ((compare a.source b.source).then
    ((compare a.origin b.origin).then (compareNames a.name b.name))) = _
  rw [compareNames_eq]
  rfl

instance : TransOrd Mapping := by
  rw [TransOrd, compare_eq]
  infer_instance

instance : LawfulEqOrd Mapping where
  eq_of_compare {a b} h := by
    rw [compare_eq] at h
    simp only [compareLex_eq_eq, compareOn] at h
    obtain ⟨hgenerated, hsource, horigin, hname⟩ := h
    have hgenerated := LawfulEqCmp.eq_of_compare hgenerated
    have hsource := LawfulEqCmp.eq_of_compare hsource
    have horigin := LawfulEqCmp.eq_of_compare horigin
    have hname := LawfulEqCmp.eq_of_compare hname
    cases a
    cases b
    cases hgenerated
    cases hsource
    cases horigin
    cases hname
    rfl

/-- Strict order. -/
def Before (a b : Mapping) : Prop := compare a b = .lt

theorem before_of_le_of_ne {a b : Mapping} (hle : le a b = true) (hne : a ≠ b) : Before a b := by
  unfold le at hle
  unfold Before
  cases hcompare : compare a b with
  | lt => rfl
  | eq => exact absurd (LawfulEqCmp.eq_of_compare hcompare) hne
  | gt => rw [hcompare] at hle; cases hle

theorem Before.le {a b : Mapping} (h : Before a b) : Mapping.le a b = true := by
  rw [Mapping.le, show compare a b = .lt from h]
  rfl

theorem le_total (a b : Mapping) : (le a b || le b a) = true := by
  unfold le
  cases hcompare : compare a b with
  | lt => rfl
  | eq => rfl
  | gt => rw [OrientedCmp.lt_of_gt hcompare]; rfl

/-- A mapping that is not after another is on its line or on an earlier one. -/
theorem line_le_of_le {a b : Mapping} (h : le a b = true) :
    a.generated.line ≤ b.generated.line := by
  refine Nat.le_of_not_lt fun hlt => ?_
  have hgt : compare a.generated.line b.generated.line = .gt := Nat.compare_eq_gt.mpr hlt
  have hcompare : compare a b = .gt := by
    show (((compare a.generated.line b.generated.line).then _).then _) = .gt
    rw [hgt]
    rfl
  rw [le, hcompare] at h
  cases h

end Mapping

/-! ## Repetitions

In a sorted list what is equal stands side by side. So leaving out each mapping that equals the one
before it leaves every mapping once. -/

/-- The mappings that do not repeat the one before them; `previous` is the one before the first. -/
def dropRepeats : Option Mapping → List Mapping → List Mapping
  | _, [] => []
  | previous, m :: ms =>
    if previous = some m then dropRepeats previous ms else m :: dropRepeats (some m) ms

theorem mem_of_mem_dropRepeats {m : Mapping} {ms : List Mapping} {previous : Option Mapping}
    (h : m ∈ dropRepeats previous ms) : m ∈ ms := by
  induction ms generalizing previous with
  | nil => exact h
  | cons n ms ih =>
    rw [dropRepeats] at h
    split at h
    · exact List.mem_cons_of_mem _ (ih h)
    · rcases List.mem_cons.mp h with rfl | h
      · exact List.mem_cons_self
      · exact List.mem_cons_of_mem _ (ih h)

/-- Only what comes before is left out. -/
theorem mem_dropRepeats {m : Mapping} {ms : List Mapping} {previous : Option Mapping} (h : m ∈ ms) :
    previous = some m ∨ m ∈ dropRepeats previous ms := by
  induction ms generalizing previous with
  | nil => cases h
  | cons n ms ih =>
    rw [dropRepeats]
    split
    · next hrepeat =>
      rcases List.mem_cons.mp h with rfl | h
      · exact .inl hrepeat
      · exact ih h
    · rcases List.mem_cons.mp h with rfl | h
      · exact .inr List.mem_cons_self
      · have hrest : some n = some m ∨ m ∈ dropRepeats (some n) ms := ih h
        rcases hrest with heq | h
        · cases heq
          exact .inr List.mem_cons_self
        · exact .inr (List.mem_cons_of_mem _ h)

/-- After a mapping, what is left of an ascending list is strictly after it and strictly
ascending. -/
theorem pairwise_dropRepeats_some {p : Mapping} {ms : List Mapping}
    (h : (p :: ms).Pairwise fun a b => Mapping.le a b = true) :
    (p :: dropRepeats (some p) ms).Pairwise Mapping.Before := by
  induction ms generalizing p with
  | nil => exact List.pairwise_singleton _ _
  | cons n ms ih =>
    obtain ⟨hp, hms⟩ := List.pairwise_cons.mp h
    rw [dropRepeats]
    split
    · next hrepeat =>
      refine ih (List.pairwise_cons.mpr ⟨fun m hm => ?_, (List.pairwise_cons.mp hms).2⟩)
      exact hp m (List.mem_cons_of_mem _ hm)
    · next hdiffer =>
      have hfirst : Mapping.Before p n :=
        Mapping.before_of_le_of_ne (hp n List.mem_cons_self) fun heq => hdiffer (by rw [heq])
      have hrest := ih hms
      refine List.pairwise_cons.mpr ⟨fun m hm => ?_, hrest⟩
      rcases List.mem_cons.mp hm with rfl | hm
      · exact hfirst
      · exact TransCmp.lt_trans hfirst ((List.pairwise_cons.mp hrest).1 m hm)

/-- **Sorting and dropping repetitions** gives the members of a list in strictly ascending order. -/
theorem sorted_dropRepeats (ms : List Mapping) :
    (dropRepeats none (ms.mergeSort Mapping.le)).Pairwise Mapping.Before
      ∧ ∀ m, m ∈ dropRepeats none (ms.mergeSort Mapping.le) ↔ m ∈ ms := by
  have hsorted := List.pairwise_mergeSort (fun _ _ _ => TransCmp.isLE_trans) Mapping.le_total ms
  constructor
  · cases hlist : ms.mergeSort Mapping.le with
    | nil => exact List.Pairwise.nil
    | cons m rest =>
      rw [hlist] at hsorted
      exact pairwise_dropRepeats_some hsorted
  · intro m
    constructor
    · intro hm
      exact List.mem_mergeSort.mp (mem_of_mem_dropRepeats hm)
    · intro hm
      exact (mem_dropRepeats (List.mem_mergeSort.mpr hm)).resolve_left (by simp)

end ArithScript
