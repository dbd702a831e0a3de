import JsxBoundary.Read

namespace JsxBoundary

structure Options where
  componentName : String := "Memo"
  importSource : String := "@legendapp/state/react"
  allGet : Bool := false
  methodNames : List String := ["get"]
  markerSuffix : String := "$"
  reactiveComponents : List String := []
  observerNames : List String := []
  wrapReactiveChildren : Bool := true
  wrapReactiveChildrenComponents : List String := []

structure Settings where
  componentName : String
  importSource : String
  policy : ReadPolicy
  reactiveComponents : List String
  observerNames : List String
  deferringComponents : List String

namespace Settings

def baseReactiveComponents : List String :=
  ["For", "Show", "Memo", "Computed", "Switch"]

def baseObserverNames : List String :=
  ["observer"]

def baseDeferringComponents : List String :=
  ["Memo", "Show", "Computed"]

/-- The names given by the options join the built-in ones. The wrapper component is reactive itself,
so a boundary is never put inside a boundary. -/
def ofOptions (o : Options) : Settings where
  componentName := o.componentName
  importSource := o.importSource
  policy := ⟨o.allGet, o.methodNames, o.markerSuffix⟩
  reactiveComponents := baseReactiveComponents ++ o.componentName :: o.reactiveComponents
  observerNames := baseObserverNames ++ o.observerNames
  deferringComponents :=
    if o.wrapReactiveChildren then baseDeferringComponents ++ o.wrapReactiveChildrenComponents
    else []

theorem componentName_mem_reactiveComponents (o : Options) :
    (ofOptions o).componentName ∈ (ofOptions o).reactiveComponents := by
  simp [ofOptions]

end Settings

end JsxBoundary
