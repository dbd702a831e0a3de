/-!
# Concrete trees

A concrete tree is what a grammar makes of source text: every node covers a range of bytes and has a
grammar kind; tokens that are only punctuation are unnamed. A child may have a field name, under which
its parent knows it. A node of kind `ERROR` covers text that fits nowhere; a missing node stands for a
token that the text lacks.

`Concrete.firstFault?` finds the first of those in document order.
-/

namespace JsxBoundary

structure Concrete.Info where
  kind : String
  start : Nat
  stop : Nat
  named : Bool := true
  field : Option String := none
  missing : Bool := false
  row : Nat := 0
  column : Nat := 0
  faulty : Bool := false

inductive Concrete where
  | mk (info : Concrete.Info) (children : List Concrete)

instance : Inhabited Concrete :=
  ⟨.mk ⟨"", 0, 0, true, none, false, 0, 0, false⟩ []⟩

namespace Concrete

def info : Concrete → Info
  | mk info _ => info

def children : Concrete → List Concrete
  | mk _ children => children

abbrev kind (n : Concrete) : String := n.info.kind

abbrev start (n : Concrete) : Nat := n.info.start

abbrev stop (n : Concrete) : Nat := n.info.stop

def isFault (n : Concrete) : Bool :=
  n.kind == "ERROR" || n.info.missing

/-- A node that is at fault if it says so or if some child is, unless that is stated otherwise. -/
def ofParts (info : Info) (stated : Option Bool) (children : List Concrete) : Concrete :=
  mk { info with faulty := stated.getD (info.kind == "ERROR" || info.missing ||
    children.any (·.info.faulty)) } children

def ofKind (n : Concrete) (kind : String) : Concrete :=
  mk { n.info with kind } n.children

def under (n : Concrete) (field : String) : Concrete :=
  mk { n.info with field := some field } n.children

def named (n : Concrete) : List Concrete :=
  n.children.filter (·.info.named)

def parts (n : Concrete) : List Concrete :=
  n.named.filter (·.kind != "comment")

def field? (n : Concrete) (name : String) : Option Concrete :=
  n.children.find? (·.info.field == some name)

def sameAs (a b : Concrete) : Bool :=
  a.kind == b.kind && a.start == b.start && a.stop == b.stop

theorem sizeOf_lt_of_mem_children {n c : Concrete} (h : c ∈ n.children) : sizeOf c < sizeOf n := by
  obtain ⟨info, cs⟩ := n
  have := List.sizeOf_lt_of_mem (show c ∈ cs from h)
  simp
  omega

theorem mem_children_of_mem_named {n c : Concrete} (h : c ∈ n.named) : c ∈ n.children :=
  (List.mem_filter.1 h).1

theorem mem_children_of_mem_parts {n c : Concrete} (h : c ∈ n.parts) : c ∈ n.children :=
  mem_children_of_mem_named (List.mem_filter.1 h).1

theorem mem_children_of_field? {n c : Concrete} {name : String} (h : n.field? name = some c) :
    c ∈ n.children :=
  List.mem_of_find?_eq_some h

def firstFault? (n : Concrete) : Option Concrete :=
  if n.isFault then some n
  else n.children.attach.findSome? fun ⟨c, _⟩ => c.firstFault?
termination_by n
decreasing_by exact sizeOf_lt_of_mem_children ‹_›

theorem firstFault?_eq (n : Concrete) :
    n.firstFault? = if n.isFault then some n else n.children.findSome? firstFault? := by
  rw [firstFault?]
  congr 1
  rw [List.findSome?_subtype fun _ _ => rfl, List.unattach_attach]

end Concrete

end JsxBoundary
