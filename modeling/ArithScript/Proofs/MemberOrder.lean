import ArithScript.Proofs.TreeReading
import Mathlib.Data.List.Forall2
import Mathlib.Order.Lattice

/-!
# Members in another order

A tree is rearranged by putting the members of its objects into another order, at any depth, and so
is a value in memory. Rearranging leaves the nesting as it is, and the value of a rearranged tree is
a rearrangement of the value of the tree, if there is one (`Tree.Rearranges.value?`).

What is done with members one after another does not depend on their order as long as any two of
them may be exchanged (`foldlM_reordered`).
-/

set_option autoImplicit false

namespace ArithScript.Json

variable {α β σ ι κ ν : Type}

/-! ## Results that are related

A computation that may fail is compared with another one: either both fail, or both have results and
the results are related. `Option.Rel` says this, and the lemmas carry it through what is done with
results. -/

section Results

variable {R : α → β → Prop} {x : Option α} {y : Option β}

/-- Related results, and whatever is made of related results in the same way, fail together or come
to the same. -/
theorem bind_eq_of_rel (h : Option.Rel R x y) {f : α → Option σ} {g : β → Option σ}
    (hfg : ∀ a b, R a b → f a = g b) : x.bind f = y.bind g := by
  cases h with
  | none => rfl
  | some h => exact hfg _ _ h

theorem rel_bind (h : Option.Rel R x y) {S : ι → κ → Prop} {f : α → Option ι} {g : β → Option κ}
    (hfg : ∀ a b, R a b → Option.Rel S (f a) (g b)) : Option.Rel S (x.bind f) (y.bind g) := by
  cases h with
  | none => exact .none
  | some h => exact hfg _ _ h

theorem rel_map (h : Option.Rel R x y) {S : ι → κ → Prop} {f : α → ι} {g : β → κ}
    (hfg : ∀ a b, R a b → S (f a) (g b)) : Option.Rel S (x.map f) (y.map g) := by
  cases h with
  | none => exact .none
  | some h => exact .some (hfg _ _ h)

theorem rel_trans (h : Option.Rel R x y) {S : β → ι → Prop} {z : Option ι} (h' : Option.Rel S y z)
    {T : α → ι → Prop} (hRS : ∀ a b c, R a b → S b c → T a c) : Option.Rel T x z := by
  cases h with
  | none =>
    cases h'
    exact .none
  | some h =>
    cases h' with
    | some h' => exact .some (hRS _ _ _ h h')

/-- Lists that are related item by item have related results. -/
theorem rel_mapM_of_forall₂ {R : ι → κ → Prop} {is : List ι} {js : List κ}
    (h : List.Forall₂ R is js) {S : α → β → Prop} {f : ι → Option α} {g : κ → Option β}
    (hfg : ∀ i j, R i j → Option.Rel S (f i) (g j)) :
    Option.Rel (List.Forall₂ S) (is.mapM f) (js.mapM g) := by
  induction h with
  | nil => exact .some .nil
  | cons hij _ ih =>
    rw [List.mapM_cons, List.mapM_cons]
    exact rel_bind (hfg _ _ hij) fun _ _ hab => rel_bind ih fun _ _ habs => .some (.cons hab habs)

theorem rel_mapM_of_perm {is js : List ι} (h : is.Perm js) (f : ι → Option α) :
    Option.Rel List.Perm (is.mapM f) (js.mapM f) := by
  induction h with
  | nil => exact .some .nil
  | cons i _ ih =>
    rw [List.mapM_cons, List.mapM_cons]
    cases f i with
    | none => exact .none
    | some a => exact rel_bind ih fun _ _ h => .some (h.cons a)
  | swap i j is =>
    simp only [List.mapM_cons]
    cases f i with
    | none => cases f j <;> exact .none
    | some a =>
      cases f j with
      | none => exact .none
      | some b =>
        cases is.mapM f with
        | none => exact .none
        | some as => exact .some (.swap a b as)
  | trans _ _ ih₁ ih₂ => exact rel_trans ih₁ ih₂ fun _ _ _ => .trans

end Results

/-! ## Rearrangements

A rearrangement changes what is inside the members first, and then their order. Both steps are in
one rule, since changing the order alone is no rearrangement of what lies deeper. -/

/-- Members of one name whose contents are related. -/
inductive SameName (R : α → α → Prop) : ν × α → ν × α → Prop where
  | mk {name : ν} {x y : α} (h : R x y) : SameName R (name, x) (name, y)

/-- **One tree is another with the members of its objects in another order**, at any depth. -/
inductive Tree.Rearranges : Tree → Tree → Prop where
  | scalar (token : List Char) : Rearranges (.scalar token) (.scalar token)
  | array {ts ts' : List Tree} (h : List.Forall₂ Rearranges ts ts') :
      Rearranges (.array ts) (.array ts')
  | object {ms same ms' : List (List Char × Tree)} (h : List.Forall₂ (SameName Rearranges) ms same)
      (hperm : same.Perm ms') : Rearranges (.object ms) (.object ms')

/-- One value is another with the members of its objects in another order, at any depth. -/
inductive Value.Rearranges : Value → Value → Prop where
  | refl (v : Value) : Rearranges v v
  | array {vs vs' : List Value} (h : List.Forall₂ Rearranges vs vs') :
      Rearranges (.array vs) (.array vs')
  | object {ms same ms' : List (String × Value)} (h : List.Forall₂ (SameName Rearranges) ms same)
      (hperm : same.Perm ms') : Rearranges (.object ms) (.object ms')

/-- What holds of the parts of a tree and of a rearrangement holds of these. -/
theorem Tree.Rearranges.induction {P : Tree → Tree → Prop}
    (hscalar : ∀ token, P (.scalar token) (.scalar token))
    (harray : ∀ {ts ts'}, List.Forall₂ P ts ts' → P (.array ts) (.array ts'))
    (hobject : ∀ {ms same ms'}, List.Forall₂ (SameName P) ms same → same.Perm ms' →
      P (.object ms) (.object ms'))
    {t t' : Tree} (h : t.Rearranges t') : P t t' :=
  @Tree.Rearranges.rec (fun t t' _ => P t t') (fun ts ts' _ => List.Forall₂ P ts ts')
    (fun ms ms' _ => List.Forall₂ (SameName P) ms ms') (fun m m' _ => SameName P m m')
    hscalar (fun _ => harray) (fun _ hperm hms => hobject hms hperm)
    .nil (fun _ _ => .cons) .nil (fun _ _ => .cons) (fun _ => .mk) t t' h

theorem Value.Rearranges.induction {P : Value → Value → Prop} (hrefl : ∀ v, P v v)
    (harray : ∀ {vs vs'}, List.Forall₂ P vs vs' → P (.array vs) (.array vs'))
    (hobject : ∀ {ms same ms'}, List.Forall₂ (SameName P) ms same → same.Perm ms' →
      P (.object ms) (.object ms'))
    {v v' : Value} (h : v.Rearranges v') : P v v' :=
  @Value.Rearranges.rec (fun v v' _ => P v v') (fun vs vs' _ => List.Forall₂ P vs vs')
    (fun ms ms' _ => List.Forall₂ (SameName P) ms ms') (fun m m' _ => SameName P m m')
    hrefl (fun _ => harray) (fun _ hperm hms => hobject hms hperm)
    .nil (fun _ _ => .cons) .nil (fun _ _ => .cons) (fun _ => .mk) v v' h

/-! ## Nesting

An array is as deep as its deepest element, and an object as its deepest member; order has no part
in it. -/

theorem greatest_perm {measure : ι → Nat} {is js : List ι} (h : is.Perm js) :
    greatest measure is = greatest measure js := by
  refine eq_of_forall_ge_iff fun n => ?_
  rw [greatest_le_iff, greatest_le_iff]
  exact forall_congr' fun i => imp_congr_left h.mem_iff

/-- Members in another order have the same greatest measure, if their contents have the same. -/
theorem greatest_reordered {measure : α → Nat} {ms same ms' : List (ν × α)}
    (h : List.Forall₂ (SameName fun x y => measure x = measure y) ms same)
    (hperm : same.Perm ms') :
    greatest (fun m => measure m.2) ms = greatest (fun m => measure m.2) ms' := by
  refine (greatest_eq_of_forall₂ (h.imp fun m m' hm => ?_)).trans (greatest_perm hperm)
  obtain ⟨hm⟩ := hm
  exact hm

/-- **Rearranging leaves the nesting as it is**, so the same texts are refused for it. -/
theorem Tree.Rearranges.nesting_eq {t t' : Tree} (h : t.Rearranges t') :
    t.nesting = t'.nesting := by
  refine h.induction (P := fun t t' => t.nesting = t'.nesting) (fun token => rfl) (fun h => ?_)
    fun h hperm => ?_
  · rw [nesting, nesting, itemsNesting_eq_greatest, itemsNesting_eq_greatest,
      greatest_eq_of_forall₂ h]
  · rw [nesting, nesting, membersNesting_eq_greatest, membersNesting_eq_greatest,
      greatest_reordered h hperm]

theorem Value.Rearranges.nesting_eq {v v' : Value} (h : v.Rearranges v') :
    v.nesting = v'.nesting := by
  refine h.induction (P := fun v v' => v.nesting = v'.nesting) (fun v => rfl) (fun h => ?_)
    fun h hperm => ?_
  · rw [nesting, nesting, itemsNesting_eq_greatest, itemsNesting_eq_greatest,
      greatest_eq_of_forall₂ h]
  · rw [nesting, nesting, membersNesting_eq_greatest, membersNesting_eq_greatest,
      greatest_reordered h hperm]

/-! ## Values of rearranged trees -/

/-- **The value of a rearranged tree** is a rearrangement of the value of the tree, or there is none
of either. -/
theorem Tree.Rearranges.value? {t t' : Tree} (h : t.Rearranges t') :
    Option.Rel Value.Rearranges t.value? t'.value? := by
  refine h.induction (P := fun t t' => Option.Rel Value.Rearranges t.value? t'.value?)
    (fun token => ?_) (fun h => ?_) fun {ms same ms'} h hperm => ?_
  · cases (Tree.scalar token).value? with
    | none => exact .none
    | some v => exact .some (.refl v)
  · rw [Tree.value?, Tree.value?, itemValues?_eq_mapM, itemValues?_eq_mapM]
    exact rel_map (rel_mapM_of_forall₂ h fun _ _ h => h) fun _ _ => .array
  · have hsame : Option.Rel (List.Forall₂ (SameName Value.Rearranges)) (ms.mapM memberValue?)
        (same.mapM memberValue?) := by
      refine rel_mapM_of_forall₂ h ?_
      rintro _ _ ⟨h⟩
      rw [memberValue?, memberValue?]
      cases text? _ with
      | none => exact .none
      | some name => exact rel_map h fun _ _ => .mk
    rw [Tree.value?, Tree.value?, memberValues?_eq_mapM, memberValues?_eq_mapM]
    exact rel_map (rel_trans hsame (rel_mapM_of_perm hperm memberValue?)
      fun _ _ _ h hperm => .object h hperm) fun _ _ h => h

/-! ## Members one after another

Decoders take members one by one and change a state with each. That the order makes no difference is
a matter of neighbours: any permutation is a sequence of exchanges. -/

theorem foldlM_congr {R : ι → ι → Prop} {is js : List ι} (h : List.Forall₂ R is js)
    {f : σ → ι → Option σ} (hf : ∀ s i j, R i j → f s i = f s j) (s : σ) :
    is.foldlM f s = js.foldlM f s := by
  induction h generalizing s with
  | nil => rfl
  | cons hij _ ih =>
    rw [List.foldlM_cons, List.foldlM_cons, hf s _ _ hij]
    exact congrArg (f s _).bind (funext ih)

/-- A fold does not depend on the order if any two neighbouring steps may be exchanged. -/
theorem foldlM_perm {f : σ → ι → Option σ}
    (hf : ∀ s i j, (f s i).bind (f · j) = (f s j).bind (f · i)) {is js : List ι} (h : is.Perm js)
    (s : σ) : is.foldlM f s = js.foldlM f s := by
  induction h generalizing s with
  | nil => rfl
  | cons i _ ih =>
    rw [List.foldlM_cons, List.foldlM_cons]
    exact congrArg (f s i).bind (funext ih)
  | swap i j is =>
    simp only [List.foldlM_cons]
    calc (f s j).bind (fun s => (f s i).bind fun s => is.foldlM f s)
      _ = ((f s j).bind (f · i)).bind fun s => is.foldlM f s := (Option.bind_assoc _ _ _).symm
      _ = ((f s i).bind (f · j)).bind fun s => is.foldlM f s := by rw [hf]
      _ = (f s i).bind (fun s => (f s j).bind fun s => is.foldlM f s) := Option.bind_assoc _ _ _
  | trans _ _ ih₁ ih₂ => rw [ih₁, ih₂]

/-- **Members may be taken in any order** if any two of them may be exchanged. -/
theorem foldlM_reordered {R : α → α → Prop} {ms same ms' : List (ν × α)} {f : σ → ν × α → Option σ}
    (hexchange : ∀ s m m', (f s m).bind (f · m') = (f s m').bind (f · m))
    (hcontent : ∀ s m m', SameName R m m' → f s m = f s m') (h : List.Forall₂ (SameName R) ms same)
    (hperm : same.Perm ms') (s : σ) : ms.foldlM f s = ms'.foldlM f s :=
  (foldlM_congr h hcontent s).trans (foldlM_perm hexchange hperm s)

/-- Reading members one after another, each before it is used, comes to the same as reading all of
them first. -/
theorem foldlM_bind {f : ι → Option α} {g : σ → α → Option σ} (is : List ι) (s : σ) :
    is.foldlM (fun s i => (f i).bind (g s)) s = (is.mapM f).bind fun xs => xs.foldlM g s := by
  induction is generalizing s with
  | nil => rfl
  | cons i is ih =>
    rw [List.foldlM_cons, List.mapM_cons]
    simp only [ih]
    cases f i with
    | none => rfl
    | some x =>
      show (g s x).bind _ = ((is.mapM f).bind fun xs => some (x :: xs)).bind fun xs => xs.foldlM g s
      rw [Option.bind_assoc, Option.bind_comm]
      rfl

end ArithScript.Json
