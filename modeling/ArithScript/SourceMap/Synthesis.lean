import ArithScript.Options
import ArithScript.SourceMap.Mapping
import ArithScript.Text.Characters
import ArithScript.Trace.Tree

/-!
# Mappings of a trace

The nodes of a trace tree are visited before their children, from the root on, and each gives its
mappings. A collapsed node gives none, because its first child gives one for the same place. Any
other node whose source range is known maps its start, under the name of the symbol if its source is
a single letter. A leaf that is solid on both sides, source and generated, maps its end as well.

The visit keeps a list of nodes still to see. A tree in which every node has one parent is done
after as many rounds as there are nodes, and that is the bound.
-/

set_option autoImplicit false

namespace ArithScript

namespace Trace.Tree

/-- Visits the nodes in a work list, and before the rest of the list the children of each, for at
most the given number of rounds. -/
def visit (tree : Tree) : Nat → List Nat → List Nat
  | 0, _ => []
  | _, [] => []
  | rounds + 1, id :: pending => id :: tree.visit rounds (tree.children id ++ pending)

/-- The numbers of the nodes below the root, each before its children. -/
def preorder (tree : Tree) : List Nat := tree.visit tree.size [root]

end Trace.Tree

/-- The name of a symbol: the source, if it is a single letter or an underscore, in lower case. -/
def symbolName? (source : List Char) : Option String :=
  match Text.trim source with
  | [c] => if c.isAlpha || c = '_' then some (String.ofList [c.toLower]) else none
  | _ => none

/-- The texts that mappings are made for. -/
structure Texts where
  /-- The name of the source. -/
  filename : String
  source : List Char
  generated : List Char

/-- The mappings of one node. -/
def nodeMappings (texts : Texts) (options : Options) (tree : Trace.Tree) (node : Trace.Node) :
    List Mapping :=
  if tree.isCollapsed node then []
  else match node.source with
    | none => []
    | some region =>
      match region.range with
      | none => []
      | some range =>
        let source := Text.slice region.offset region.stop texts.source
        let generated := Text.slice node.target.offset node.target.stop texts.generated
        let name := if options.symbolNames then symbolName? source else none
        let first : Mapping := ⟨node.target.range.start, range.start, texts.filename, name⟩
        if options.endMappings && node.isLeaf && Text.isSolid source && Text.isSolid generated then
          [first, ⟨node.target.range.stop, range.stop, texts.filename, none⟩]
        else [first]

/-- The mappings of a trace tree, in the order of the visit. -/
def synthesize (texts : Texts) (options : Options) (tree : Trace.Tree) : List Mapping :=
  tree.preorder.flatMap fun id =>
    match tree.node? id with
    | some node => nodeMappings texts options tree node
    | none => []

end ArithScript
