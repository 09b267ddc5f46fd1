import ArithScript.Document.Form
import ArithScript.Document.Value
import ArithScript.Proofs.JsonDecoding

/-!
# Documents and their JSON form

The forms that documents are read by and the values that they are written as were given separately.
Here they are matched, construct by construct: the decoder of each makes it of its own value. Since
`Decodes` speaks of text and memory alike, the result for documents (`Document.decodes_toValue`) is
at once that a document is read back from its text.

What has to be known of a document is that its numbers are of the widths that readers allow, and
that the numerals of its literals are read back (`Document.Writable`). Names and texts may be
anything.
-/

set_option autoImplicit false

namespace ArithScript

open Json

/-! ## Places

Offsets, lines and columns have widths, and a number beyond its width is refused. `Fits` says that
none is. -/

/-- The numbers of a position are of their width. -/
def Position.Fits (p : Position) : Prop :=
  p.line ≤ Width.coordinate.max ∧ p.character ≤ Width.coordinate.max

/-- The numbers of a range are of their width. -/
def Range.Fits (r : Range) : Prop := r.start.Fits ∧ r.stop.Fits

/-- The numbers of a region are of their width. -/
def Region.Fits (r : Region) : Prop :=
  r.offset ≤ Width.offset.max ∧ r.stop ≤ Width.offset.max ∧ ∀ range ∈ r.range, range.Fits

theorem Position.decodes_toValue {p : Position} (h : p.Fits) :
    Position.decoder.Decodes p.toValue p := by
  have hline := Shape.accepts_required (Decoder.decodes_natural h.1) "line"
  have hcharacter := Shape.accepts_required (Decoder.decodes_natural h.2) "character"
  exact ((hline.map Position.mk).seq hcharacter (by simp)).decodes _

theorem Range.decodes_toValue {r : Range} (h : r.Fits) : Range.decoder.Decodes r.toValue r := by
  have hstart := Shape.accepts_required (Position.decodes_toValue h.1) "start"
  have hstop := Shape.accepts_required (Position.decodes_toValue h.2) "end"
  exact ((hstart.map Range.mk).seq hstop (by simp)).decodes _

/-- A region is decoded from its own value, if its offsets and its range are of their widths. Ranges
and positions likewise. -/
theorem Region.decodes_toValue {r : Region} (h : r.Fits) : Region.decoder.Decodes r.toValue r := by
  obtain ⟨offset, stop, range⟩ := r
  obtain ⟨hoffset, hstop, hrange⟩ := h
  have hoffset := Shape.accepts_required (Decoder.decodes_natural hoffset) "offset"
  have hstop := Shape.accepts_required (Decoder.decodes_natural hstop) "end"
  have hends := (hoffset.map Region.mk).seq hstop (by simp)
  cases range with
  | none =>
    have habsent := Shape.accepts_absent Range.decoder.nullable "range" none
    exact (hends.seq habsent (by simp)).decodes _
  | some range =>
    have hrange := (Range.decodes_toValue (hrange range rfl)).nullable (by nofun)
    exact (hends.seq (Shape.accepts_optional hrange "range" none) (by simp)).decodes _

/-- A region that may be absent is of its width. -/
def RegionFits (r : Option Region) : Prop := ∀ region ∈ r, region.Fits

/-- A region that is not there is written as `null`. -/
theorem decodes_regionValue {r : Option Region} (h : RegionFits r) :
    Region.decoder.nullable.Decodes (regionValue r) r := by
  cases r with
  | none => exact Decoder.decodes_nullable_none _
  | some r => exact (Region.decodes_toValue (h r rfl)).nullable (by nofun)

/-- The region of a construct is one member of its record. -/
theorem accepts_regionMember {r : Option Region} (h : RegionFits r) :
    regionField.Accepts [regionMember r] r :=
  Shape.accepts_optional (decodes_regionValue h) "region" none

/-! ## Expressions

An expression is written as the record of its kind with a tag. Decoding is bounded by nesting, so
the lemmas hold for every bound that the value keeps to; the recursion is over the expression and
its arguments. -/

theorem Reference.decodes_toValue {r : Reference} (h : RegionFits r.region) :
    Reference.decoder.Decodes r.toValue r := by
  have hname := Shape.accepts_required (Decoder.decodes_string r.name) "name"
  exact ((hname.map Reference.mk).seq (accepts_regionMember h) (by simp [regionMember])).decodes _

/-- An operator is written as its symbol, which is its tag. -/
theorem Operator.decodes_symbol (operator : Operator) :
    Operator.decoder.Decodes (.string operator.symbol) operator := by
  refine Decoder.decodes_buffered trivial ?_
  cases operator <;> rfl

mutual

/-- The numbers of an expression are of their width, and its literals are read back. -/
def Expr.Writable : Expr → Prop
  | .literal value region => ReadsBack value ∧ RegionFits region
  | .binary _ operatorRegion left right region =>
    RegionFits operatorRegion ∧ left.Writable ∧ right.Writable ∧ RegionFits region
  | .call function arguments region =>
    RegionFits function.region ∧ Expr.AllWritable arguments ∧ RegionFits region

def Expr.AllWritable : List Expr → Prop
  | [] => True
  | e :: es => e.Writable ∧ Expr.AllWritable es

end

theorem Expr.toValues_eq_map (es : List Expr) : Expr.toValues es = es.map Expr.toValue := by
  induction es with
  | nil => rfl
  | cons e es ih => rw [Expr.toValues, ih, List.map_cons]

/-- An expression is decoded one level above the expressions inside it. -/
theorem Expr.decodes_variant {bound : Nat} {tag name : String} {shape : Shape Expr}
    {found : List (String × Value)} {e : Expr}
    (htag : (variants (decoder bound)).ofTag tag = .ok (shape.convert name))
    (hfree : ∀ m ∈ found, m.1 ≠ tagName) (haccepts : shape.Accepts found e) :
    (decoder (bound + 1)).Decodes (.object ((tagName, .string tag) :: found)) e := by
  have hvariant := Variants.decodes htag hfree haccepts.readable (haccepts.decodes name).convert
  exact Decoder.decodes_buffered hvariant.readable hvariant.convert

mutual

/-- **An expression is decoded from its value**, given at least the nesting of that value. -/
theorem Expr.decodes_toValue : ∀ (e : Expr), e.Writable → ∀ (bound : Nat),
    e.toValue.nesting ≤ bound → (Expr.decoder bound).Decodes e.toValue e
  | .literal value region, h, bound, hbound => by
    rw [Expr.toValue, Value.nesting] at hbound
    obtain ⟨bound, rfl⟩ : ∃ b, bound = b + 1 := ⟨bound - 1, by omega⟩
    have hreal : Decoder.real.Decodes (.real value) value := Decoder.decodes_buffered h.1 rfl
    have hvalue := (Shape.accepts_required hreal "value").map Expr.literal
    have haccepts := hvalue.seq (accepts_regionMember h.2) (by simp [regionMember])
    exact Expr.decodes_variant rfl (by simp [regionMember, tagName]) haccepts
  | .binary operator operatorRegion left right region, h, bound, hbound => by
    obtain ⟨hoperatorRegion, hleft, hright, hregion⟩ := h
    simp only [Expr.toValue, Value.nesting, membersNesting] at hbound
    obtain ⟨bound, rfl⟩ : ∃ b, bound = b + 1 := ⟨bound - 1, by omega⟩
    -- each operand is one level deeper, so the bound for it is one less
    have hleft := Expr.decodes_toValue left hleft bound (by omega)
    have hright := Expr.decodes_toValue right hright bound (by omega)
    have hoperator := (Shape.accepts_required operator.decodes_symbol "operator").map Expr.binary
    have hoperator := hoperator.seq
      (Shape.accepts_optional (decodes_regionValue hoperatorRegion) "operatorRegion" none) (by simp)
    have hleft := hoperator.seq (Shape.accepts_required hleft "left") (by simp)
    have hright := hleft.seq (Shape.accepts_required hright "right") (by simp)
    have haccepts := hright.seq (accepts_regionMember hregion) (by simp [regionMember])
    exact Expr.decodes_variant rfl (by simp [regionMember, tagName]) haccepts
  | .call function arguments region, h, bound, hbound => by
    obtain ⟨hfunction, harguments, hregion⟩ := h
    simp only [Expr.toValue, Value.nesting, membersNesting, Expr.toValues_eq_map] at hbound ⊢
    obtain ⟨bound, rfl⟩ : ∃ b, bound = b + 1 := ⟨bound - 1, by omega⟩
    have harguments := Decoder.decodes_list
      (Expr.decodes_toValues arguments harguments bound (by omega))
    have hfunction := (Shape.accepts_required (Reference.decodes_toValue hfunction) "function").map
      Expr.call
    have hcall := hfunction.seq (Shape.accepts_optional harguments "arguments" []) (by simp)
    have haccepts := hcall.seq (accepts_regionMember hregion) (by simp [regionMember])
    exact Expr.decodes_variant rfl (by simp [regionMember, tagName]) haccepts

/-- Arguments are decoded one by one, within the nesting of the list. -/
theorem Expr.decodes_toValues : ∀ (es : List Expr), Expr.AllWritable es → ∀ (bound : Nat),
    itemsNesting (es.map Expr.toValue) ≤ bound →
    ∀ e ∈ es, (Expr.decoder bound).Decodes e.toValue e
  | [], _, _, _ => nofun
  | e :: es, h, bound, hbound => by
    rw [List.map_cons, itemsNesting, Nat.max_le] at hbound
    exact List.forall_mem_cons.mpr ⟨Expr.decodes_toValue e h.1 bound hbound.1,
      Expr.decodes_toValues es h.2 bound hbound.2⟩

end

/-! ## Statements

Each kind of statement is a record with one expression in it. -/

def Parameter.Writable (p : Parameter) : Prop := RegionFits p.region

def Definition.Writable (d : Definition) : Prop :=
  RegionFits d.nameRegion ∧ (∀ p ∈ d.parameters, p.Writable) ∧ d.body.Writable ∧ RegionFits d.region

def Evaluation.Writable (e : Evaluation) : Prop := e.expression.Writable ∧ RegionFits e.region

def Statement.Writable : Statement → Prop
  | .definition d => d.Writable
  | .evaluation e => e.Writable

theorem Parameter.decodes_toValue {p : Parameter} (h : p.Writable) :
    Parameter.decoder.Decodes p.toValue p := by
  have hname := Shape.accepts_required (Decoder.decodes_string p.name) "name"
  exact ((hname.map Parameter.mk).seq (accepts_regionMember h) (by simp [regionMember])).decodes _

/-- The members of a definition are fed to its form one by one: name, region of the name,
parameters, body and region. -/
theorem Definition.accepts_toMembers {d : Definition} (h : d.Writable) {bound : Nat}
    (hbound : d.body.toValue.nesting ≤ bound) :
    (Definition.shape (Expr.decoder bound)).Accepts d.toMembers d := by
  obtain ⟨hnameRegion, hparameters, hbody, hregion⟩ := h
  have hname := (Shape.accepts_required (Decoder.decodes_string d.name) "name").map Definition.mk
  have hname := hname.seq
    (Shape.accepts_optional (decodes_regionValue hnameRegion) "nameRegion" none) (by simp)
  have hparameters := Decoder.decodes_list fun p hp => Parameter.decodes_toValue (hparameters p hp)
  have hhead := hname.seq (Shape.accepts_optional hparameters "parameters" []) (by simp)
  have hbody := Expr.decodes_toValue d.body hbody bound hbound
  have hdefinition := hhead.seq (Shape.accepts_required hbody "body") (by simp)
  exact hdefinition.seq (accepts_regionMember hregion) (by simp [regionMember])

theorem Evaluation.accepts_toMembers {e : Evaluation} (h : e.Writable) {bound : Nat}
    (hbound : e.expression.toValue.nesting ≤ bound) :
    (Evaluation.shape (Expr.decoder bound)).Accepts e.toMembers e := by
  have hexpression := Expr.decodes_toValue e.expression h.1 bound hbound
  have hexpression := (Shape.accepts_required hexpression "expression").map Evaluation.mk
  exact hexpression.seq (accepts_regionMember h.2) (by simp [regionMember])

/-- A statement is decoded by the case of its tag. The bound for the expression in it is the nesting
of the content. -/
theorem Statement.decodes_toValue {s : Statement} (h : s.Writable) :
    Statement.variants.decoder.Decodes s.toValue s := by
  cases s with
  | definition d =>
    have hbound : d.body.toValue.nesting ≤ (Value.object d.toMembers).nesting := by
      simp only [Definition.toMembers, Value.nesting, membersNesting]
      omega
    have haccepts := (Definition.accepts_toMembers h hbound).map Statement.definition
    exact Variants.decodes rfl (by simp [Definition.toMembers, regionMember, tagName])
      haccepts.readable (haccepts.decodes "Definition").convert
  | evaluation e =>
    have hbound : e.expression.toValue.nesting ≤ (Value.object e.toMembers).nesting := by
      simp only [Evaluation.toMembers, Value.nesting, membersNesting]
      omega
    have haccepts := (Evaluation.accepts_toMembers h hbound).map Statement.evaluation
    exact Variants.decodes rfl (by simp [Evaluation.toMembers, regionMember, tagName])
      haccepts.readable (haccepts.decodes "Evaluation").convert

/-! ## Modules and documents

What is left are two records around the statements. -/

def Module.Writable (m : Module) : Prop := RegionFits m.region ∧ ∀ s ∈ m.statements, s.Writable

/-- What a document has to be for its text to say all: its numbers are of their widths, and its
literals are read back. -/
def Document.Writable (d : Document) : Prop := d.module.Writable

/-- The statements of a module are written as a list, also if there are none. -/
theorem Module.decodes_toValue {m : Module} (h : m.Writable) :
    Module.decoder.Decodes m.toValue m := by
  have hstatements := Decoder.decodes_list fun s hs => Statement.decodes_toValue (h.2 s hs)
  have hstatements := Shape.accepts_optional hstatements "statements" []
  have hmembers :=
    ((accepts_regionMember h.1).map Module.mk).seq hstatements (by simp [regionField])
  exact hmembers.decodes _

/-- **A document is decoded from its value**, in memory and in print alike. -/
theorem Document.decodes_toValue {d : Document} (h : d.Writable) :
    Document.decoder.Decodes d.toValue d := by
  obtain ⟨sourceText, module⟩ := d
  have hmodule := Shape.accepts_required (Module.decodes_toValue h) "module"
  cases sourceText with
  | none =>
    have htext := Shape.accepts_optional (Decoder.decodes_nullable_none Decoder.string)
      "sourceText" none
    exact ((htext.map Document.mk).seq hmodule (by simp)).decodes _
  | some text =>
    have htext := Shape.accepts_optional ((Decoder.decodes_string text).nullable (by nofun))
      "sourceText" none
    exact ((htext.map Document.mk).seq hmodule (by simp)).decodes _

end ArithScript
