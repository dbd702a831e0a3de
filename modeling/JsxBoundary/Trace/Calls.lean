import JsxBoundary.Trace

namespace JsxBoundary

inductive Remark where
  | boundary (node before after : String)
  | deferral (tag before after : String)
  | importing (action statement : String)
  | warning (message : String)
  deriving DecidableEq, Repr

def Remark.action : Remark → Action
  | boundary node before after => .boundary node before after
  | deferral tag before after => .deferral tag before after
  | importing action statement => .importing action statement
  | warning message => .warning message

namespace Trace

inductive Operation where
  | startPhase (name detail : String)
  | endPhase
  | log (remark : Remark)
  deriving DecidableEq, Repr

def apply (t : Trace) : Operation → Trace
  | .startPhase name detail => t.startPhase name detail
  | .endPhase => t.endPhase
  | .log remark => t.record remark.action

def ofOperations (operations : List Operation) : Trace :=
  operations.foldl apply {}

end Trace

inductive Call where
  | startPhase (name detail : String)
  | endPhase
  | log (remark : Remark)
  | phase (name detail : String) (body : List Call)
  | raise
  | attempt (body : List Call)

namespace Call

mutual

def run (t : Trace) : Call → Bool × Trace
  | startPhase name detail => (false, t.startPhase name detail)
  | endPhase => (false, t.endPhase)
  | log remark => (false, t.record remark.action)
  | phase name detail body =>
    let (raised, t') := runAll (t.startPhase name detail) body
    (raised, t'.endPhase)
  | raise => (true, t)
  | attempt body => (false, (runAll t body).2)

def runAll (t : Trace) : List Call → Bool × Trace
  | [] => (false, t)
  | call :: calls =>
    match run t call with
    | (true, t') => (true, t')
    | (false, t') => runAll t' calls

end

mutual

def raises : Call → Bool
  | startPhase _ _ | endPhase | log _ | attempt _ => false
  | phase _ _ body => raisesAny body
  | raise => true

def raisesAny : List Call → Bool
  | [] => false
  | call :: calls => raises call || raisesAny calls

end

mutual

def operations : Call → List Trace.Operation
  | startPhase name detail => [.startPhase name detail]
  | endPhase => [.endPhase]
  | log remark => [.log remark]
  | phase name detail body => .startPhase name detail :: operationsOf body ++ [.endPhase]
  | raise => []
  | attempt body => operationsOf body

def operationsOf : List Call → List Trace.Operation
  | [] => []
  | call :: calls => operations call ++ if raises call then [] else operationsOf calls

end

mutual

theorem run_eq (t : Trace) (call : Call) :
    call.run t = (call.raises, call.operations.foldl Trace.apply t) := by
  cases call with
  | startPhase | endPhase | log | raise => simp [run, raises, operations, Trace.apply]
  | phase name detail body =>
      simp [run, raises, operations, runAll_eq (t.startPhase name detail) body, Trace.apply]
  | attempt body => simp [run, raises, operations, runAll_eq t body]

theorem runAll_eq (t : Trace) (calls : List Call) :
    runAll t calls = (raisesAny calls, (operationsOf calls).foldl Trace.apply t) := by
  cases calls with
  | nil => simp [runAll, raisesAny, operationsOf]
  | cons call calls =>
      rw [runAll, run_eq t call]
      cases raised : call.raises with
      | true => simp [raisesAny, operationsOf, raised]
      | false =>
          simp [raisesAny, operationsOf, raised, runAll_eq (call.operations.foldl Trace.apply t) calls]

end

end Call

end JsxBoundary
