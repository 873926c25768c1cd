import DataBinding.Error
import DataBinding.Identity
import DataBinding.Markup.Reader
import DataBinding.Selector
import DataBinding.Table

/-!
Nodes of documents and their links. Only elements carry attributes and an input value, so those stand with the
content.
-/

namespace DataBinding

inductive Content where
  | document
  | fragment
  | element (tag : String) (attributes : Fields String) (value : String)
  | text (content : String)

inductive Listener where
  | call (callback : CallbackId)
  | method (model : ModelId) (callback : CallbackId)
  | input (model : ModelId) (path : Path) (record : RecordId)

/-- A node; `holders` counts who keeps it apart from its parent. -/
structure Node where
  content : Content
  parent : Option NodeId := none
  children : List NodeId := []
  listeners : List (String × Listener) := []
  holders : Nat := 0

instance : Inhabited Node := ⟨{ content := .fragment }⟩

namespace Content

def tag : Content → String
  | .document => "#document"
  | .fragment => "#fragment"
  | .element tag _ _ => tag
  | .text _ => "#text"

def kind : Content → String
  | .document => "document"
  | .fragment => "fragment"
  | .element _ _ _ => "element"
  | .text _ => "text"

def attributes : Content → Fields String
  | .element _ attributes _ => attributes
  | _ => []

def value : Content → String
  | .element _ _ value => value
  | _ => ""

def isText : Content → Bool
  | .text _ => true
  | _ => false

def isElement : Content → Bool
  | .element _ _ _ => true
  | _ => false

def takesChildren : Content → Bool
  | .text _ => false
  | .element tag _ _ => !Markup.isVoid tag
  | _ => true

def matched (s : Selector) : Content → Bool
  | .element tag attributes _ => s.accepts tag attributes
  | _ => false

end Content

structure Forest where
  nodes : Table Node := {}

namespace Forest

def node (f : Forest) (n : NodeId) : Node := f.nodes.get n.index

def content (f : Forest) (n : NodeId) : Content := (f.node n).content

def children (f : Forest) (n : NodeId) : List NodeId := (f.node n).children

def size (f : Forest) : Nat := f.nodes.size

def modify (f : Forest) (n : NodeId) (change : Node → Node) : Forest := ⟨f.nodes.modify n.index change⟩

def setContent (f : Forest) (n : NodeId) (c : Content) : Forest := f.modify n ({ · with content := c })

def create (f : Forest) (c : Content) : NodeId × Forest := (⟨f.size⟩, ⟨f.nodes.add { content := c }⟩)

theorem node_of_size_le {f : Forest} {n : NodeId} (h : f.size ≤ n.index) : f.node n = { content := .fragment } :=
  Table.get_of_size_le _ h

@[simp] theorem size_modify (f : Forest) (n : NodeId) (change : Node → Node) : (f.modify n change).size = f.size :=
  Table.size_modify _ _ _

@[simp] theorem node_modify (f : Forest) (n m : NodeId) (change : Node → Node) :
    (f.modify n change).node m = if m = n ∧ n.index < f.size then change (f.node m) else f.node m := by
  have same : m.index = n.index ↔ m = n := ⟨congrArg NodeId.mk, congrArg NodeId.index⟩
  exact (Table.get_modify _ _ _ _).trans (ite_congr (propext (and_congr_left' same)) (fun _ => rfl) fun _ => rfl)

@[simp] theorem modify_modify (f : Forest) (n : NodeId) (change change' : Node → Node) :
    (f.modify n change).modify n change' = f.modify n fun d => change' (change d) :=
  congrArg Forest.mk (f.nodes.modify_modify n.index change change')

@[simp] theorem content_setContent (f : Forest) (n m : NodeId) (c : Content) :
    (f.setContent n c).content m = if m = n ∧ n.index < f.size then c else f.content m := by
  rw [content, setContent, node_modify]
  split <;> rfl

@[simp] theorem children_setContent (f : Forest) (n m : NodeId) (c : Content) :
    (f.setContent n c).children m = f.children m := by
  rw [children, setContent, node_modify]
  split <;> rfl

@[simp] theorem listeners_setContent (f : Forest) (n m : NodeId) (c : Content) :
    ((f.setContent n c).node m).listeners = (f.node m).listeners := by
  rw [setContent, node_modify]
  split <;> rfl

@[simp] theorem setContent_content (f : Forest) (n : NodeId) : f.setContent n (f.content n) = f :=
  congrArg Forest.mk (Table.modify_of_fixed rfl)

@[simp] theorem create_fst (f : Forest) (c : Content) : (f.create c).1 = ⟨f.size⟩ := rfl

@[simp] theorem size_create (f : Forest) (c : Content) : (f.create c).2.size = f.size + 1 := Table.size_add _ _

@[simp] theorem node_create (f : Forest) (c : Content) (n : NodeId) :
    (f.create c).2.node n = if n.index = f.size then { content := c } else f.node n := Table.get_add _ _ _

@[simp] theorem content_create (f : Forest) (c : Content) (n : NodeId) :
    (f.create c).2.content n = if n.index = f.size then c else f.content n := by
  rw [content, node_create]
  split <;> rfl

theorem content_created (f : Forest) (c : Content) : (f.create c).2.content ⟨f.size⟩ = c := by simp

theorem content_createFragment (f : Forest) (n : NodeId) :
    (f.create .fragment).2.content n = f.content n := by
  rw [content_create, content]
  split
  · next new => rw [node_of_size_le (Nat.le_of_eq new.symm)]
  · rfl

@[simp] theorem children_create (f : Forest) (c : Content) (n : NodeId) :
    (f.create c).2.children n = f.children n := by
  rw [children, node_create, children]
  split
  · next new => rw [node_of_size_le (Nat.le_of_eq new.symm)]
  · rfl

theorem parent_create (f : Forest) (c : Content) (n : NodeId) :
    ((f.create c).2.node n).parent = (f.node n).parent := by
  rw [node_create]
  split
  · next new => rw [node_of_size_le (Nat.le_of_eq new.symm)]
  · rfl

def createElement (f : Forest) (tag : String) : NodeId × Forest := f.create (.element (lowerCase tag) [] "")

def retain (f : Forest) (n : NodeId) : Forest := f.modify n fun d => { d with holders := d.holders + 1 }

def release (f : Forest) (n : NodeId) : Forest := f.modify n fun d => { d with holders := d.holders - 1 }

/-- Whether a node is kept, by a holder of its own or by its parent; at most so many parents are asked. -/
def keptWithin (f : Forest) : Nat → NodeId → Bool
  | 0, n => 0 < (f.node n).holders
  | steps + 1, n => 0 < (f.node n).holders || (f.node n).parent.any (f.keptWithin steps)

def kept (f : Forest) (n : NodeId) : Bool := f.keptWithin f.size n

/-- The parent, while it is kept; a child alone does not keep it. -/
def parent? (f : Forest) (n : NodeId) : Option NodeId := (f.node n).parent.filter f.kept

def ancestorWithin (f : Forest) (a : NodeId) : Nat → NodeId → Bool
  | 0, _ => false
  | steps + 1, n => (f.node n).parent.any fun p => p = a || f.ancestorWithin a steps p

def isAncestor (f : Forest) (a n : NodeId) : Bool := f.ancestorWithin a f.size n

def detach (f : Forest) (n : NodeId) : Forest :=
  match (f.node n).parent with
  | none => f
  | some p =>
    (f.modify n ({ · with parent := none })).modify p fun d => { d with children := d.children.filter (· ≠ n) }

def adopt (f : Forest) (p c : NodeId) : Forest :=
  ((f.detach c).modify c ({ · with parent := some p })).modify p fun d => { d with children := d.children ++ [c] }

def adoptAll (f : Forest) (p : NodeId) (cs : List NodeId) : Forest := cs.foldl (·.adopt p ·) f

/-- Moves a node to the end of a parent. In place of a fragment its children move. -/
def append (f : Forest) (p c : NodeId) : Except DocumentError Forest :=
  if !(f.content p).takesChildren then .error (.misplaced .childlessParent)
  else match f.content c with
    | .document => .error (.misplaced .documentAsChild)
    | .fragment => .ok (f.adoptAll p (f.children c))
    | _ => if c = p ∨ f.isAncestor c p then .error (.misplaced .ownAncestor) else .ok (f.adopt p c)

def setAttribute (f : Forest) (n : NodeId) (name value : String) : Except DocumentError Forest :=
  match f.content n with
  | .element tag attributes v => .ok (f.setContent n (.element tag (attributes.set name value) v))
  | _ => .error (.notElement .setAttribute)

def removeAttribute (f : Forest) (n : NodeId) (name : String) : Forest :=
  match f.content n with
  | .element tag attributes v => f.setContent n (.element tag (attributes.erase name) v)
  | _ => f

def setValue (f : Forest) (n : NodeId) (value : String) : Except DocumentError Forest :=
  match f.content n with
  | .element tag attributes _ => .ok (f.setContent n (.element tag attributes value))
  | _ => .error (.notElement .setValue)

def replaceChildren (f : Forest) (n : NodeId) (text : String) : Forest :=
  let emptied := (f.children n).foldl Forest.detach f
  if text.isEmpty then emptied
  else
    let (t, f) := emptied.create (.text text)
    f.adopt n t

def setText (f : Forest) (n : NodeId) (text : String) : Except DocumentError Forest :=
  match f.content n with
  | .text _ => .ok (f.setContent n (.text text))
  | .element tag _ _ =>
    if Markup.isVoid tag then .error (.notText .setText) else .ok (f.replaceChildren n text)
  | .fragment => .ok (f.replaceChildren n text)
  | .document => .error (.notText .setText)

def listen (f : Forest) (n : NodeId) (event : String) (listener : Listener) : Forest :=
  f.modify n fun d => { d with listeners := d.listeners ++ [(event, listener)] }

def listeners (f : Forest) (n : NodeId) (event : String) : List Listener :=
  (f.node n).listeners.filterMap fun (kind, listener) => if kind = event then some listener else none

@[simp] theorem content_listen (f : Forest) (n m : NodeId) (event : String) (listener : Listener) :
    (f.listen n event listener).content m = f.content m := by
  rw [content, listen, node_modify]
  split <;> rfl

theorem listeners_listen (f : Forest) (n m : NodeId) (event : String) (listener : Listener) :
    ((f.listen n event listener).node m).listeners =
      if m = n ∧ n.index < f.size then (f.node m).listeners ++ [(event, listener)] else (f.node m).listeners := by
  rw [listen, node_modify]
  split <;> rfl

mutual

/-- Creates the nodes of a tree. The value of an input starts as its attribute says. -/
def plant (f : Forest) : Markup.Tree → NodeId × Forest
  | .text content => f.create (.text content)
  | .element tag attributes children =>
    let (n, f) := f.create (.element tag attributes ((attributes.get? "value").getD ""))
    (n, plantAll f n children)

def plantAll (f : Forest) (p : NodeId) : List Markup.Tree → Forest
  | [] => f
  | tree :: rest =>
    let (n, f) := f.plant tree
    plantAll (f.adopt p n) p rest

end

def createDocument (f : Forest) (trees : List Markup.Tree) : NodeId × Forest :=
  let (root, f) := f.create .document
  (root, f.plantAll root trees)

end Forest

end DataBinding
