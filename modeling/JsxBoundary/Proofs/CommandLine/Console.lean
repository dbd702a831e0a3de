import JsxBoundary.Proofs.CommandLine.Jobs

/-!
# What a console makes of the command

A console may be unable to show a notice, and then the command ends there. Up to that notice it goes on as in front
of a console that shows everything (`convert_seen`).
-/

namespace JsxBoundary.CommandLine

variable {shows : Notice → Bool} {refusals : Refusals} {packages : Packages} {o : Options} {α β : Type}

/-- A computation on a guarded tree in front of a console that shows only these notices and ends it at any other. -/
def Terminal (_shows : Notice → Bool) (_refusals : Refusals) (α : Type) : Type :=
  FileTree → Except Notice α × FileTree

namespace Terminal

def run (x : Terminal shows refusals α) (t : FileTree) : Except Notice α × FileTree :=
  x t

instance : Monad (Terminal shows refusals) where
  pure a := fun t => (.ok a, t)
  bind x f := fun t => match x t with
    | (.ok a, t') => f a t'
    | (.error n, t') => (.error n, t')

def quietly (x : Guarded refusals α) : Terminal shows refusals α :=
  fun t => (.ok (x.run t).1, (x.run t).2)

instance : Storage (Terminal shows refusals) where
  kind? p := quietly (Storage.kind? p)
  read p := quietly (Storage.read p)
  write p content := quietly (Storage.write p content)
  makeDirectory p := quietly (Storage.makeDirectory p)
  filesBelow p := quietly (Storage.filesBelow p)
  enclosing p := quietly (Storage.enclosing p)

instance : Console (Terminal shows refusals) where
  put n := fun t => (if shows n then .ok () else .error n, t)

theorem run_bind (x : Terminal shows refusals α) (f : α → Terminal shows refusals β) (t : FileTree) :
    (x >>= f).run t = match x.run t with
      | (.ok a, t') => (f a).run t'
      | (.error n, t') => (.error n, t') := rfl

instance : LawfulMonad (Terminal shows refusals) :=
  .mk' _ (fun x => funext fun t => by
      change Terminal.run (x >>= pure) t = x.run t
      rw [run_bind]
      rcases x.run t with ⟨_ | _, _⟩ <;> rfl)
    (fun _ _ => rfl) fun x f g => funext fun t => by
      change Terminal.run ((x >>= f) >>= g) t = Terminal.run (x >>= fun a => f a >>= g) t
      rw [run_bind, run_bind, run_bind]
      rcases x.run t with ⟨_ | _, _⟩ <;> rfl

theorem run_put (n : Notice) (t : FileTree) :
    (Console.put n : Terminal shows refusals Unit).run t = (if shows n then .ok () else .error n, t) := rfl

end Terminal

/-- The first computation does what the second does, and no notice ends it. -/
def Quiet (x : Terminal shows refusals α) (y : Guarded refusals α) : Prop :=
  ∀ t, x.run t = (.ok (y.run t).1, (y.run t).2)

namespace Quiet

theorem pure (a : α) : Quiet (pure a : Terminal shows refusals α) (pure a) :=
  fun _ => rfl

theorem quietly (y : Guarded refusals α) : Quiet (Terminal.quietly y : Terminal shows refusals α) y :=
  fun _ => rfl

theorem bind {x : Terminal shows refusals α} {y : Guarded refusals α} {f : α → Terminal shows refusals β}
    {g : α → Guarded refusals β} (first : Quiet x y) (next : ∀ a, Quiet (f a) (g a)) :
    Quiet (x >>= f) (y >>= g) := by
  intro t
  rw [Terminal.run_bind, first t, Guarded.run_bind]
  exact next _ _

theorem ensureOne (p : Path) :
    Quiet (Storage.ensureOne p : Terminal shows refusals _) (Storage.ensureOne p) := by
  refine .bind (.quietly _) fun r => ?_
  cases r with
  | ok => exact .pure _
  | error e =>
      refine .bind (.quietly _) fun kind => ?_
      split <;> exact .pure _

theorem ensureWithin (levels : Nat) (p : Path) :
    Quiet (Storage.ensureWithin levels p : Terminal shows refusals _) (Storage.ensureWithin levels p) := by
  induction levels generalizing p with
  | zero => exact .ensureOne p
  | succ levels ih =>
      refine .bind (.ensureOne p) fun r => ?_
      cases r with
      | ok => exact .pure _
      | error e =>
          dsimp only
          split
          · refine .bind (ih p.parent) fun r => ?_
            cases r with
            | ok => exact .ensureOne p
            | error e => exact .pure _
          · exact .pure _

theorem writeInside (p : Path) (content : ByteArray) :
    Quiet (Storage.writeInside p content : Terminal shows refusals _) (Storage.writeInside p content) := by
  refine .bind (.ensureWithin _ _) fun r => ?_
  cases r with
  | ok => exact .quietly _
  | error e => exact .pure _

theorem isFile (p : Path) : Quiet (Storage.isFile p : Terminal shows refusals _) (Storage.isFile p) :=
  .bind (.quietly _) fun _ => .pure _

end Quiet

/-- What a run comes to in front of a console that shows only these notices: all of it, or a part that ends at the
first notice that is not shown. -/
inductive Seen (shows : Notice → Bool) (report : Report) (run : (Except Crash α × Report) × FileTree) :
    Except Notice (Except Crash α × Report) × FileTree → Prop
  | whole {added : List Notice} (logged : run.1.2.notices.toList = report.notices.toList ++ added)
      (shown : ∀ n ∈ added, shows n = true) : Seen shows report run (.ok run.1, run.2)
  | part {front back : List Notice} {n : Notice} {t : FileTree}
      (logged : run.1.2.notices.toList = report.notices.toList ++ (front ++ n :: back))
      (shown : ∀ m ∈ front, shows m = true) (unshown : shows n = false) : Seen shows report run (.error n, t)

namespace Job

/-- What a part of the command comes to in front of a console: the notice that ended it, or else what it comes to. -/
def attend (x : Job (Terminal shows refusals) α) (report : Report) (t : FileTree) :
    Except Notice (Except Crash α × Report) × FileTree :=
  Terminal.run (x.run.run report) t

theorem attend_bind (x : Job (Terminal shows refusals) α) (f : α → Job (Terminal shows refusals) β)
    (report : Report) (t : FileTree) : (x >>= f).attend report t = match x.attend report t with
      | (.ok (.ok a, report'), t') => (f a).attend report' t'
      | (.ok (.error crash, report'), t') => (.ok (.error crash, report'), t')
      | (.error n, t') => (.error n, t') := by
  change Terminal.run (x.run.run report >>= _) t = _
  rw [Terminal.run_bind, show (x.run.run report).run t = x.attend report t from rfl]
  rcases x.attend report t with ⟨_ | ⟨_ | _, _⟩, _⟩ <;> rfl

theorem attend_onStorage (x : Terminal shows refusals α) (report : Report) (t : FileTree) :
    (onStorage x).attend report t = match x.run t with
      | (.ok a, t') => (.ok (.ok a, report), t')
      | (.error n, t') => (.error n, t') := by
  change Terminal.run ((x >>= fun a => Pure.pure (a, report)) >>= fun p => Pure.pure (Except.ok p.1, p.2)) t = _
  rw [Terminal.run_bind, Terminal.run_bind]
  rcases x.run t with ⟨_ | _, _⟩ <;> rfl

theorem attend_log (level : Level) (spans : List Span) (report : Report) (t : FileTree) :
    (log level spans : Job (Terminal shows refusals) Unit).attend report t =
      if shows ⟨level, spans⟩ then
        (.ok (.ok (), { report with notices := report.notices.push ⟨level, spans⟩ }), t)
      else (.error ⟨level, spans⟩, t) := by
  rw [log, attend_bind]
  change (onStorage (Console.put ⟨level, spans⟩)).attend _ _ = _
  rw [attend_onStorage, Terminal.run_put]
  cases shows ⟨level, spans⟩ <;> rfl

end Job

namespace Seen

variable {report report' : Report} {run : (Except Crash α × Report) × FileTree}
  {seen : Except Notice (Except Crash α × Report) × FileTree}

theorem logged (h : Seen shows report run seen) :
    ∃ added, run.1.2.notices.toList = report.notices.toList ++ added := by
  cases h with
  | whole logged => exact ⟨_, logged⟩
  | part logged => exact ⟨_, logged⟩

theorem after {added : List Notice} (before : report'.notices.toList = report.notices.toList ++ added)
    (shown : ∀ n ∈ added, shows n = true) (h : Seen shows report' run seen) : Seen shows report run seen := by
  cases h with
  | @whole more logged shown' =>
      refine .whole (logged.trans (by rw [before, List.append_assoc])) fun n member => ?_
      exact (List.mem_append.1 member).elim (shown n) (shown' n)
  | @part front back n t logged shown' unshown =>
      have whole : run.1.2.notices.toList = report.notices.toList ++ ((added ++ front) ++ n :: back) :=
        logged.trans (by rw [before]; simp)
      exact .part whole (fun m member => (List.mem_append.1 member).elim (shown m) (shown' m)) unshown

end Seen

def Follows (x : Job (Terminal shows refusals) α) (y : Job (Guarded refusals) α) : Prop :=
  ∀ report t, Seen shows report (y.runOn report t) (x.attend report t)

namespace Follows

theorem silent {x : Job (Terminal shows refusals) α} {y : Job (Guarded refusals) α}
    (same : ∀ report t, x.attend report t = (.ok (y.runOn report t).1, (y.runOn report t).2))
    (quiet : ∀ report t, (y.runOn report t).1.2.notices = report.notices) : Follows x y := by
  intro report t
  have logged : (y.runOn report t).1.2.notices.toList = report.notices.toList ++ [] := by
    rw [quiet, List.append_nil]
  rw [same]
  exact .whole logged nofun

theorem pure (a : α) : Follows (pure a : Job (Terminal shows refusals) α) (pure a) :=
  silent (fun _ _ => rfl) fun _ _ => rfl

theorem throw (crash : Crash) : Follows (throw crash : Job (Terminal shows refusals) α) (throw crash) :=
  silent (fun _ _ => rfl) fun _ _ => rfl

theorem crash (fault : Crash) {f : α → Job (Terminal shows refusals) β} {g : α → Job (Guarded refusals) β} :
    Follows (MonadExcept.throw fault >>= f) (MonadExcept.throw fault >>= g) :=
  silent (fun _ _ => rfl) fun _ _ => rfl

theorem print (text : String) : Follows (Job.print text : Job (Terminal shows refusals) Unit) (Job.print text) :=
  silent (fun _ _ => rfl) fun _ _ => rfl

theorem display (d : Display) : Follows (Job.display d : Job (Terminal shows refusals) Unit) (Job.display d) :=
  silent (fun _ _ => rfl) fun _ _ => rfl

theorem onStorage {x : Terminal shows refusals α} {y : Guarded refusals α} (h : Quiet x y) :
    Follows (Job.onStorage x) (Job.onStorage y) := by
  refine silent (fun report t => ?_) fun _ _ => rfl
  rw [Job.attend_onStorage, h t]
  rfl

theorem log (level : Level) (spans : List Span) :
    Follows (Job.log level spans : Job (Terminal shows refusals) Unit) (Job.log level spans) := by
  intro report t
  have logged : ((Job.log level spans : Job (Guarded refusals) Unit).runOn report t).1.2.notices.toList =
      report.notices.toList ++ ([] ++ [⟨level, spans⟩]) := by
    rw [Job.runOn_log]
    simp
  rw [Job.attend_log]
  cases shown : shows ⟨level, spans⟩ with
  | true => exact .whole logged (by simpa using shown)
  | false => exact .part logged nofun shown

theorem bind {x : Job (Terminal shows refusals) α} {y : Job (Guarded refusals) α}
    {f : α → Job (Terminal shows refusals) β} {g : α → Job (Guarded refusals) β} (first : Follows x y)
    (next : ∀ a, Follows (f a) (g a)) : Follows (x >>= f) (y >>= g) := by
  intro report t
  rw [Job.attend_bind, Job.runOn_bind]
  have seen := first report t
  generalize x.attend report t = s at seen
  generalize y.runOn report t = r at seen
  obtain ⟨⟨crash | a, report'⟩, t'⟩ := r
  · cases seen with
    | whole logged shown => exact .whole logged shown
    | part logged shown unshown => exact .part logged shown unshown
  · cases seen with
    | whole logged shown => exact (next a report' t').after logged shown
    | @part front back n t logged shown unshown =>
        obtain ⟨more, goes⟩ := (next a report' t').logged
        have whole : ((g a).runOn report' t').1.2.notices.toList =
            report.notices.toList ++ (front ++ n :: (back ++ more)) :=
          goes.trans (by rw [logged]; simp)
        exact .part whole shown unshown

theorem mapM {f : α → Job (Terminal shows refusals) β} {g : α → Job (Guarded refusals) β}
    (each : ∀ a, Follows (f a) (g a)) (as : List α) : Follows (as.mapM f) (as.mapM g) := by
  induction as with
  | nil => exact .pure _
  | cons a as ih =>
      rw [List.mapM_cons, List.mapM_cons]
      exact (each a).bind fun b => ih.bind fun bs => .pure _

theorem forM {f : α → Job (Terminal shows refusals) PUnit} {g : α → Job (Guarded refusals) PUnit}
    (each : ∀ a, Follows (f a) (g a)) (as : List α) : Follows (as.forM f) (as.forM g) := by
  induction as with
  | nil => exact .pure _
  | cons a as ih => exact (each a).bind fun _ => ih

theorem findSomeM? {f : α → Job (Terminal shows refusals) (Option β)} {g : α → Job (Guarded refusals) (Option β)}
    (each : ∀ a, Follows (f a) (g a)) (as : List α) : Follows (as.findSomeM? f) (as.findSomeM? g) := by
  induction as with
  | nil => exact .pure _
  | cons a as ih =>
      refine (each a).bind fun found => ?_
      cases found with
      | none => exact ih
      | some b => exact .pure _

theorem storeTrace (path : Path) (events : Array Event) :
    Follows (storeTrace path events : Job (Terminal shows refusals) Unit) (storeTrace path events) := by
  refine .bind (.onStorage (.writeInside _ _)) fun r => ?_
  cases r <;> exact .log _ _

theorem deliver (path : Path) (out : Option Path) (r : Outcome) :
    Follows (deliver path out r : Job (Terminal shows refusals) FileResult) (deliver path out r) := by
  cases out with
  | none => exact (Follows.print _).bind fun _ => .pure _
  | some out =>
      refine .bind (.onStorage (.writeInside _ _)) fun written => ?_
      cases written <;> exact (Follows.log _ _).bind fun _ => .pure _

theorem conclude (path : Path) (out trace : Option Path) (r : Outcome) :
    Follows (do
        if let some trace := trace then CommandLine.storeTrace trace r.events
        if r.success then CommandLine.deliver path out r
        else return { success := false, errors := r.errors } : Job (Terminal shows refusals) FileResult)
      (do
        if let some trace := trace then CommandLine.storeTrace trace r.events
        if r.success then CommandLine.deliver path out r
        else return { success := false, errors := r.errors }) := by
  have last : Follows (if r.success then CommandLine.deliver path out r
      else return { success := false, errors := r.errors } : Job (Terminal shows refusals) FileResult)
      (if r.success then CommandLine.deliver path out r else return { success := false, errors := r.errors }) := by
    split
    · exact .deliver path out r
    · exact .pure _
  cases trace with
  | none => exact last
  | some trace => exact (Follows.storeTrace trace r.events).bind fun _ => last

theorem convertFile (packages : Packages) (o : Options) (verbose : Bool) (path : Path) (out trace : Option Path) :
    Follows (convertFile packages o verbose path out trace : Job (Terminal shows refusals) FileResult)
      (convertFile packages o verbose path out trace) := by
  refine .bind (.onStorage (.quietly _)) fun read => ?_
  cases read with
  | error e => exact (Follows.log _ _).bind fun _ => .pure _
  | ok content =>
      dsimp only
      cases Utf8.decode content with
      | error fault => exact .crash _
      | ok text =>
          refine (Follows.pure _).bind fun text => ?_
          cases Outcome.ofFile? o path.name text packages.parse with
          | none => exact .pure _
          | some r =>
              cases verbose with
              | false => exact .conclude path out trace r
              | true =>
                  refine (Follows.forM (fun note => .log _ _) r.notes.toList).bind fun _ => ?_
                  exact .conclude path out trace r

theorem summarize (results : List (String × FileResult)) :
    Follows (summarize results : Job (Terminal shows refusals) Unit) (summarize results) := by
  unfold CommandLine.summarize
  dsimp only
  split
  · exact .log _ _
  · exact (Follows.display _).bind fun _ => .display _

theorem convertDirectory (packages : Packages) (o : Options) (c : Conversion) :
    Follows (convertDirectory packages o c : Job (Terminal shows refusals) Nat) (convertDirectory packages o c) := by
  unfold CommandLine.convertDirectory
  cases c.out with
  | none => exact (Follows.log _ _).bind fun _ => .pure _
  | some out =>
      refine ((Follows.onStorage (.quietly _)).bind fun _ => .pure _).bind fun files => ?_
      split
      · exact (Follows.log _ _).bind fun _ => .pure _
      · refine (Follows.log _ _).bind fun _ => .bind (.mapM (fun names => ?_) files) fun results => ?_
        · exact (Follows.convertFile packages o c.verbose _ _ _).bind fun _ => .pure _
        · exact (Follows.summarize results).bind fun _ => .pure _

theorem convertSingle (packages : Packages) (o : Options) (c : Conversion) :
    Follows (convertSingle packages o c : Job (Terminal shows refusals) Nat) (convertSingle packages o c) := by
  unfold CommandLine.convertSingle
  split
  · exact (Follows.log _ _).bind fun _ => .pure _
  · refine (Follows.convertFile packages o c.verbose _ _ _).bind fun r => ?_
    split
    · exact .pure _
    · exact (Follows.summarize _).bind fun _ => .pure _

theorem findConfiguration (directory : Path) :
    Follows (findConfiguration directory : Job (Terminal shows refusals) (Option ByteArray))
      (findConfiguration directory) := by
  refine .bind (.onStorage (.quietly _)) fun around => .findSomeM? (fun directory => ?_) around
  refine .bind (.onStorage (.isFile _)) fun there => ?_
  split
  · refine .bind (.onStorage (.quietly _)) fun read => ?_
    cases read with
    | ok content => exact .pure _
    | error e => exact .throw _
  · exact .pure _

theorem loadOptions (packages : Packages) (c : Conversion) (directory : Path) :
    Follows (loadOptions packages c directory : Job (Terminal shows refusals) (Option Options))
      (loadOptions packages c directory) := by
  have refuse (why : String) : Follows (CommandLine.loadOptions.refuse why : Job (Terminal shows refusals) _)
      (CommandLine.loadOptions.refuse why) := (Follows.log _ _).bind fun _ => .pure _
  refine .bind (.findConfiguration directory) fun found => ?_
  split
  · exact .pure _
  · exact refuse _
  · exact refuse _
  · exact .throw _
  · exact .throw _

theorem convert (packages : Packages) (c : Conversion) :
    Follows (convert packages c : Job (Terminal shows refusals) Nat) (convert packages c) := by
  refine .bind (.onStorage (.quietly _)) fun kind => ?_
  cases kind with
  | none => exact (Follows.log _ _).bind fun _ => .pure _
  | some kind =>
      refine .bind (.loadOptions packages c _) fun loaded => ?_
      cases loaded with
      | none => exact .pure _
      | some o =>
          cases kind with
          | file => exact .convertSingle packages o c
          | directory => exact .convertDirectory packages o c

end Follows

/-- Whatever a console can show, the command comes to what it comes to in front of one that shows everything, or
ends at the first notice that it cannot show. -/
theorem convert_seen (packages : Packages) (c : Conversion) (report : Report) (t : FileTree) :
    Seen shows report ((convert packages c : Job (Guarded refusals) Nat).runOn report t)
      ((convert packages c : Job (Terminal shows refusals) Nat).attend report t) :=
  Follows.convert packages c report t

end JsxBoundary.CommandLine
