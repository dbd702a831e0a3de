import JsxBoundary.Json
import JsxBoundary.Trace

namespace JsxBoundary

def Event.toJson (e : Event) : Json :=
  .object [("seq", .number e.seq), ("type", .string e.action.type),
    ("description", .string e.action.description), ("phase", e.phase.elim .null .number),
    ("metadata", .object (e.action.metadata.map fun (key, value) => (key, .string value)))]

def Trace.stored (events : Array Event) : String :=
  (Json.list (events.toList.map Event.toJson)).print

end JsxBoundary
