import JsxBoundary.CommandLine.Convert
import JsxBoundary.Storage.FileTree

namespace JsxBoundary.CommandLine

variable {m : Type → Type} [Monad m] [Storage m] [Console m]

instance {m : Type → Type} [Monad m] : Console (StateT FileTree m) where
  put _ := pure ()

def versionLine : String :=
  "jsx-memo 0.1.0\n"

def usageLine : String :=
  "usage: jsx-memo [-h] [--version] convert [options] path\n"

inductive Ending where
  | exit (code : Nat)
  | crash (cause : Crash)

def run (arguments : List String) (packages : Packages := {}) : m (Ending × Report) := do
  match Request.ofArguments false arguments with
  | .help => return (.exit 0, { printed := usageLine })
  | .version => return (.exit 0, { printed := versionLine })
  | .misuse => return (.exit 2, {})
  | .convert c =>
    match ← (convert packages c).run.run {} with
    | (.ok code, report) => return (.exit code, report)
    | (.error cause, report) => return (.crash cause, report)

end JsxBoundary.CommandLine
