import DataBinding.Forest.Basic

/-!
Reading the tree below a node. No tree is deeper than the forest has nodes, which bounds every walk.
-/

namespace DataBinding.Forest

def treesWithin (f : Forest) : Nat → NodeId → List Markup.Tree
  | 0, _ => []
  | depth + 1, n =>
    let below := (f.children n).flatMap (f.treesWithin depth)
    match f.content n with
    | .text content => [.text content]
    | .element tag attributes _ => [.element tag attributes below]
    | .document | .fragment => below

def trees (f : Forest) (n : NodeId) : List Markup.Tree := f.treesWithin f.size n

def markup (f : Forest) (n : NodeId) : String := String.ofList (Markup.renderAll (f.trees n))

def innerMarkup (f : Forest) (n : NodeId) : String :=
  String.ofList (Markup.renderAll ((f.children n).flatMap f.trees))

def text (f : Forest) (n : NodeId) : String := String.ofList (Markup.contentAll (f.trees n))

def descendantsWithin (f : Forest) (depth : Nat) : Nat → NodeId → List (Nat × NodeId)
  | 0, _ => []
  | steps + 1, n => (f.children n).flatMap fun c => (depth, c) :: f.descendantsWithin (depth + 1) steps c

def descendants (f : Forest) (n : NodeId) : List (Nat × NodeId) := f.descendantsWithin 0 f.size n

def findWithin (f : Forest) (s : Selector) : Nat → NodeId → Option NodeId
  | 0, _ => none
  | depth + 1, n => (f.children n).findSome? fun c =>
    if (f.content c).matched s then some c else f.findWithin s depth c

def find? (f : Forest) (s : Selector) (n : NodeId) : Option NodeId := f.findWithin s f.size n

def query? (f : Forest) (root : NodeId) (selector : String) : Option NodeId :=
  (Selector.read? selector).bind fun s => f.find? s root

end DataBinding.Forest
