import ArithScript.Document.Ranges
import ArithScript.Proofs.Rendering

/-!
# The regions of a document

Regions lie all over a document, on every construct and on some parts of constructs. Two things are
done with all of them at once. `mapRegions` changes each and leaves the rest of the document as it
is; with it two documents are compared up to their regions, by taking the regions away from both.
`regions` lists those that are present. Filling in ranges is one such change (`fill_eq_mapRegions`),
so the regions of a filled document are those that it came with, each filled in (`regions_fill`).
-/

set_option autoImplicit false

namespace ArithScript

open Lowering

/-! ## Changing all regions

The function is asked about every place that can have a region, also where there is none, so that
regions can be taken away from a document and put into one. All that is not a region stays as it is;
in particular the heights do. -/

section

variable (f : Option Region → Option Region)

def Reference.mapRegions (r : Reference) : Reference := { r with region := f r.region }

mutual

/-- An expression with all its regions changed, also where there is none. -/
def Expr.mapRegions : Expr → Expr
  | .literal value region => .literal value (f region)
  | .binary operator operatorRegion left right region =>
    .binary operator (f operatorRegion) left.mapRegions right.mapRegions (f region)
  | .call function arguments region =>
    .call (function.mapRegions f) (Expr.mapAllRegions arguments) (f region)

def Expr.mapAllRegions : List Expr → List Expr
  | [] => []
  | e :: es => e.mapRegions :: Expr.mapAllRegions es

end

def Parameter.mapRegions (p : Parameter) : Parameter := { p with region := f p.region }

def Definition.mapRegions (d : Definition) : Definition where
  name := d.name
  nameRegion := f d.nameRegion
  parameters := d.parameters.map (·.mapRegions f)
  body := d.body.mapRegions f
  region := f d.region

def Evaluation.mapRegions (e : Evaluation) : Evaluation where
  expression := e.expression.mapRegions f
  region := f e.region

def Statement.mapRegions : Statement → Statement
  | .definition d => .definition (d.mapRegions f)
  | .evaluation e => .evaluation (e.mapRegions f)

def Module.mapRegions (m : Module) : Module where
  region := f m.region
  statements := m.statements.map (·.mapRegions f)

mutual

/-- Regions have no part in the height of an expression, so documents are refused for their height
with any regions or with none. -/
theorem Expr.height_mapRegions : ∀ e : Expr, (e.mapRegions f).height = e.height
  | .literal _ _ => rfl
  | .binary _ _ left right _ => by
    rw [Expr.mapRegions, Expr.height, Expr.height, left.height_mapRegions, right.height_mapRegions]
  | .call _ arguments _ => by
    rw [Expr.mapRegions, Expr.height, Expr.height, Expr.maxHeight_mapAllRegions arguments]

theorem Expr.maxHeight_mapAllRegions : ∀ es : List Expr,
    Expr.maxHeight (Expr.mapAllRegions f es) = Expr.maxHeight es
  | [] => rfl
  | e :: es => by
    rw [Expr.mapAllRegions, Expr.maxHeight, Expr.maxHeight, e.height_mapRegions,
      Expr.maxHeight_mapAllRegions es]

end

/-- Nor have they in the height of a module, which is the greatest of its statements. -/
theorem Module.height_mapRegions (m : Module) : (m.mapRegions f).height = m.height := by
  have heights : ∀ s : Statement, (s.mapRegions f).expression.height = s.expression.height := by
    intro s
    cases s with
    | definition d => exact d.body.height_mapRegions f
    | evaluation e => exact e.expression.height_mapRegions f
  rw [Module.height, Module.height, Expr.maxHeight_eq_greatest, Expr.maxHeight_eq_greatest,
    Module.mapRegions, List.map_map, greatest_map, greatest_map]
  exact congrArg (greatest · m.statements) (funext heights)

end

/-- A module without its regions. -/
def Module.eraseRegions (m : Module) : Module := m.mapRegions fun _ => none

mutual

/-- Filling in looks at one region at a time, so it is a change of all regions by one function. -/
theorem Expr.fill_eq_mapRegions (index : LineIndex) : ∀ e : Expr,
    e.fill index = e.mapRegions (fillRegion index)
  | .literal _ _ => rfl
  | .binary _ _ left right _ => by
    rw [Expr.fill, Expr.mapRegions, left.fill_eq_mapRegions index, right.fill_eq_mapRegions index]
  | .call function arguments _ => by
    rw [Expr.fill, Expr.mapRegions, Expr.fillAll_eq_mapAllRegions index arguments]
    rfl

theorem Expr.fillAll_eq_mapAllRegions (index : LineIndex) : ∀ es : List Expr,
    Expr.fillAll index es = Expr.mapAllRegions (fillRegion index) es
  | [] => rfl
  | e :: es => by
    rw [Expr.fillAll, Expr.mapAllRegions, e.fill_eq_mapRegions index,
      Expr.fillAll_eq_mapAllRegions index es]

end

theorem Statement.fill_eq_mapRegions (index : LineIndex) (s : Statement) :
    s.fill index = s.mapRegions (fillRegion index) := by
  cases s with
  | definition d =>
    rw [Statement.fill, Definition.fill, Expr.fill_eq_mapRegions]
    rfl
  | evaluation e =>
    rw [Statement.fill, Evaluation.fill, Expr.fill_eq_mapRegions]
    rfl

/-- **Filling in ranges changes nothing but regions.** -/
theorem Module.fill_eq_mapRegions (index : LineIndex) (m : Module) :
    m.fill index = m.mapRegions (fillRegion index) := by
  rw [Module.fill, Module.mapRegions]
  congr 1
  exact List.map_congr_left fun s _ => s.fill_eq_mapRegions index

/-- Filling in does not make a document any deeper. -/
theorem Module.height_fill (index : LineIndex) (m : Module) : (m.fill index).height = m.height := by
  rw [Module.fill_eq_mapRegions, Module.height_mapRegions]

/-! ## Listing all regions

Regions are listed in the order of the fields: that of a construct comes before those of its parts.
The list says which regions there are and in which order, but not whose they are. -/

mutual

/-- The regions in an expression: its own, that of its operator or name, and those in its parts. -/
def Expr.regions : Expr → List Region
  | .literal _ region => region.toList
  | .binary _ operatorRegion left right region =>
    region.toList ++ operatorRegion.toList ++ left.regions ++ right.regions
  | .call function arguments region =>
    region.toList ++ function.region.toList ++ Expr.allRegions arguments

def Expr.allRegions : List Expr → List Region
  | [] => []
  | e :: es => e.regions ++ Expr.allRegions es

end

def Definition.regions (d : Definition) : List Region :=
  d.region.toList ++ d.nameRegion.toList ++ d.parameters.flatMap (·.region.toList) ++ d.body.regions

def Statement.regions : Statement → List Region
  | .definition d => d.regions
  | .evaluation e => e.region.toList ++ e.expression.regions

def Module.regions (m : Module) : List Region :=
  m.region.toList ++ m.statements.flatMap Statement.regions

/-- All regions of a document. -/
def Document.regions (d : Document) : List Region := d.module.regions

/-- The recursion over arguments goes through them in order. -/
theorem Expr.allRegions_eq_flatMap (es : List Expr) :
    Expr.allRegions es = es.flatMap Expr.regions := by
  induction es with
  | nil => rfl
  | cons e es ih => rw [Expr.allRegions, ih, List.flatMap_cons]

section

variable (g : Region → Region)

mutual

/-- To change the regions that are present and list them is to list them and change each. A function
of regions leaves places without a region as they are. -/
theorem Expr.regions_mapRegions : ∀ e : Expr,
    (e.mapRegions (Option.map g)).regions = e.regions.map g
  | .literal _ region => by simp [Expr.mapRegions, Expr.regions, Option.toList_map]
  | .binary _ _ left right _ => by
    simp [Expr.mapRegions, Expr.regions, Option.toList_map, left.regions_mapRegions,
      right.regions_mapRegions]
  | .call function arguments _ => by
    simp [Expr.mapRegions, Expr.regions, Reference.mapRegions, Option.toList_map,
      Expr.allRegions_mapAllRegions arguments]

theorem Expr.allRegions_mapAllRegions : ∀ es : List Expr,
    Expr.allRegions (Expr.mapAllRegions (Option.map g) es) = (Expr.allRegions es).map g
  | [] => rfl
  | e :: es => by
    simp [Expr.mapAllRegions, Expr.allRegions, e.regions_mapRegions,
      Expr.allRegions_mapAllRegions es]

end

theorem Statement.regions_mapRegions (s : Statement) :
    (s.mapRegions (Option.map g)).regions = s.regions.map g := by
  cases s with
  | definition d =>
    simp [Statement.mapRegions, Statement.regions, Definition.mapRegions, Definition.regions,
      Expr.regions_mapRegions, Parameter.mapRegions, Option.toList_map, List.flatMap_map,
      List.map_flatMap]
  | evaluation e =>
    simp [Statement.mapRegions, Statement.regions, Evaluation.mapRegions, Expr.regions_mapRegions,
      Option.toList_map]

theorem Module.regions_mapRegions (m : Module) :
    (m.mapRegions (Option.map g)).regions = m.regions.map g := by
  simp [Module.mapRegions, Module.regions, Statement.regions_mapRegions, Option.toList_map,
    List.flatMap_map, List.map_flatMap]

end

/-- **The regions of a filled document** are those that it came with, in the same order, each with
its range filled in. -/
theorem Module.regions_fill (index : LineIndex) (m : Module) :
    (m.fill index).regions = m.regions.map (·.fill index) := by
  rw [Module.fill_eq_mapRegions]
  exact Module.regions_mapRegions (·.fill index) m

end ArithScript
