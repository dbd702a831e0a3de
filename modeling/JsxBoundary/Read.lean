import JsxBoundary.Tree.Tag

/-!
# Observable reads

A read is a call without arguments of a dotted access `object.method`, where `method` is one of the
configured method names and, unless every such call counts, the name at the root of `object` ends
in the marker suffix. Parentheses and optional access change nothing; a computed access is no read.

A read inside a function literal runs later and does not belong to the expression around it, so
`Node.containsRead` does not look into function literals (`Node.containsRead_eq`).
-/

namespace JsxBoundary

structure ReadPolicy where
  allReads : Bool := false
  methodNames : List String := ["get"]
  suffix : String := "$"

def ReadPolicy.marks (policy : ReadPolicy) (name : String) : Bool :=
  policy.suffix.toList.isSuffixOf name.toList

namespace Node

def rootName? : Node → Option String
  | mk (.parens expression) _ => expression.rootName?
  | mk (.member object _ _ _) _ => object.rootName?
  | mk (.identifier name) _ => some name
  | _ => none

def isRead (policy : ReadPolicy) (n : Node) : Bool :=
  match n.form with
  | .call callee [] _ =>
    match callee.unwrapParens.form with
    | .member object property false _ =>
      property.identifier?.any policy.methodNames.contains &&
        (policy.allReads || object.rootName?.any policy.marks)
    | _ => false
  | _ => false

def containsRead (policy : ReadPolicy) (n : Node) : Bool :=
  !n.isFunction && (n.isRead policy || n.children.attach.any fun ⟨c, _⟩ => c.containsRead policy)
termination_by n
decreasing_by exact sizeOf_lt_of_mem_children ‹_›

theorem containsRead_eq (policy : ReadPolicy) (n : Node) : n.containsRead policy =
    (!n.isFunction && (n.isRead policy || n.children.any (containsRead policy))) := by
  rw [containsRead]
  congr 2
  rw [List.any_subtype fun _ _ => rfl, List.unattach_attach]

theorem isFunction_eq_false_of_containsRead {policy : ReadPolicy} {n : Node}
    (h : n.containsRead policy) : n.isFunction = false := by
  rw [containsRead_eq, Bool.and_eq_true, Bool.not_eq_true'] at h
  exact h.1

def exemptAttributes : List String :=
  ["key", "ref"]

def isReadingAttribute (policy : ReadPolicy) (n : Node) : Bool :=
  match n.form with
  | .spreadAttr argument => argument.containsRead policy
  | .attr name (some value) =>
    !exemptAttributes.contains name &&
      match value.form with
      | .container expression => expression.containsRead policy
      | _ => false
  | _ => false

end Node

def OpeningTag.hasReadingAttribute (policy : ReadPolicy) (tag : OpeningTag) : Bool :=
  tag.attributes.any (Node.isReadingAttribute policy)

end JsxBoundary
