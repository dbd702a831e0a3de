import JsxBoundary.InPlace.Injection

namespace JsxBoundary.InPlace.Change

/-- Puts `new` into each place of the form where `old` stands, and tells whether there is one. -/
def exchangeInForm (parent old new : Ref) : Change Bool := do
  let some form := (← get).form? parent | return false
  modify fun h => h.modify parent ({ · with form := form.map fun r => if r = old then new else r })
  return form.children.contains old

/-- Puts `new` into each place of the layout where `old` stands, if the object has a layout. -/
def exchangeInLayout (parent old new : Ref) : Change Unit :=
  modify fun h => h.modify parent fun o =>
    { o with layout := o.layout.map (·.map (Mark.map fun r => if r = old then new else r)) }

def replaceChild (parent old new : Ref) : Change Unit := do
  if ← exchangeInForm parent old new then exchangeInLayout parent old new
  else
    let h ← get
    throw (.notAChild (h.tree old).typeName (h.tree parent).typeName)

end JsxBoundary.InPlace.Change
