import JsxBoundary.Proofs.CommandLine.Jobs

namespace JsxBoundary.CommandLine

open FileTree

variable {refusals : Refusals} {packages : Packages} {t t' : FileTree} {base : Path} {place dirs : List String}
  {name : String}

/-- Stores what the transform has made of a text, after its trace. -/
def deposited (refusals : Refusals) (packages : Packages) (o : Options) (out : Path) (trace : Option Path)
    (text : String) (t : FileTree) : Except StorageError Unit × FileTree :=
  let r := Outcome.ofSource o (Text.unifyNewlines text) packages.parse
  refusals.stored (traced refusals trace r.events t) out r.code.toUTF8

/-- The ways in which the conversion of a source file ends, and what stands at its destination then. -/
inductive FileEnds (refusals : Refusals) (packages : Packages) (o : Options) (t : FileTree) (source out : Path)
    (trace : Option Path) (target : List String) (after : Option Entry) : Except Crash FileResult → Prop
  | unread {e : StorageError} (read : refusals.read t source = .error e) (spared : after = t.get? target) :
      FileEnds refusals packages o t source out trace target after
        (.ok { success := false, errors := [e.message] })
  | undecodable {content : ByteArray} {fault : Utf8.Fault} (read : refusals.read t source = .ok content)
      (decoded : Utf8.decode content = .error fault) (spared : after = t.get? target) :
      FileEnds refusals packages o t source out trace target after (.error (.undecodable fault))
  | untransformed {content : ByteArray} {text : String} (read : refusals.read t source = .ok content)
      (decoded : Utf8.decode content = .ok text)
      (failed : (Outcome.ofSource o (Text.unifyNewlines text) packages.parse).success = false)
      (spared : after = t.get? target) : FileEnds refusals packages o t source out trace target after
        (.ok { success := false, errors := (Outcome.ofSource o (Text.unifyNewlines text) packages.parse).errors })
  | unwritten {content : ByteArray} {text code : String} {e : StorageError}
      (read : refusals.read t source = .ok content) (decoded : Utf8.decode content = .ok text)
      (transformed : transform o (Text.unifyNewlines text) packages.parse = .ok code)
      (failed : (deposited refusals packages o out trace text t).1 = .error e)
      (spared : Spared refusals target code.toUTF8 (t.get? target) after) :
      FileEnds refusals packages o t source out trace target after
        (.ok { success := false, errors := [e.message] })
  | written {content : ByteArray} {text code : String} {count : Nat}
      (read : refusals.read t source = .ok content) (decoded : Utf8.decode content = .ok text)
      (transformed : transform o (Text.unifyNewlines text) packages.parse = .ok code)
      (stored : (deposited refusals packages o out trace text t).1 = .ok ())
      (there : after = some (.file code.toUTF8)) :
      FileEnds refusals packages o t source out trace target after
        (.ok { success := true, rewriteCount := count })

def besides (base : Path) (dirs : List String) (sibling : Option String) : Option Path :=
  sibling.map fun other => base.append (dirs ++ [other])

def Touched (place dirs : List String) (name : String) (sibling : Option String)
    (q : List String) : Prop :=
  q = place ++ (dirs ++ [name]) ∨ ∃ other ∈ sibling, q = place ++ (dirs ++ [other])

variable {sibling : Option String}

theorem traced_spec (refusals : Refusals) (leads : t.Leads base place) (tidy : t.Tidy)
    (plain : ∀ other ∈ sibling, ".." ∉ dirs ++ [other]) (events : Array Event) :
    Affects refusals (Way place dirs) (fun q => ∃ other ∈ sibling, q = place ++ (dirs ++ [other])) t
        (traced refusals (besides base dirs sibling) events t) ∧
      (traced refusals (besides base dirs sibling) events t).Tidy := by
  cases sibling with
  | none => exact ⟨.refl t, tidy⟩
  | some other =>
      have spec := refusals.stored_spec leads tidy (plain other rfl)
        (Trace.stored events).toUTF8
      exact ⟨spec.affects.mono (fun _ => id) fun q here => ⟨other, rfl, here⟩, spec.tidy⟩

theorem traced_ready (ready : Ready refusals place dirs name t t') (leads : t.Leads base place)
    (leads' : t'.Leads base place) (tidy : t.Tidy) (tidy' : t'.Tidy)
    (plain : ∀ other ∈ sibling, ".." ∉ dirs ++ [other]) (apart : ∀ other ∈ sibling, name ≠ other)
    (events : Array Event) :
    Ready refusals place dirs name (traced refusals (besides base dirs sibling) events t)
      (traced refusals (besides base dirs sibling) events t') := by
  cases sibling with
  | none => exact ready
  | some other =>
      exact ready.beside leads leads' tidy tidy' (plain other rfl) (apart other rfl) _

theorem traced_target (refusals : Refusals) (leads : t.Leads base place) (tidy : t.Tidy)
    (plain : ∀ other ∈ sibling, ".." ∉ dirs ++ [other]) (apart : ∀ other ∈ sibling, name ≠ other)
    (events : Array Event) :
    (traced refusals (besides base dirs sibling) events t).get? (place ++ (dirs ++ [name])) =
      t.get? (place ++ (dirs ++ [name])) := by
  refine (traced_spec refusals leads tidy plain events).1.get?_eq Way.not_last ?_
  rintro ⟨other, member, same⟩
  exact apart other member (by simpa using same)

theorem transform_eq_ok {o : Options} {parse : String → Except Fault Node} {source code : String} :
    transform o source parse = .ok code ↔ (Outcome.ofSource o source parse).success = true ∧
      (Outcome.ofSource o source parse).code = code := by
  unfold transform Outcome.result
  split <;> simp_all

theorem delivered_affects (refusals : Refusals) (leads : t.Leads base place) (tidy : t.Tidy)
    (plain : ".." ∉ dirs ++ [name]) (r : Outcome) :
    Affects refusals (Way place dirs) (· = place ++ (dirs ++ [name])) t
        (delivered refusals (base.append (dirs ++ [name])) r t).2 ∧
      (delivered refusals (base.append (dirs ++ [name])) r t).2.Tidy := by
  rw [delivered]
  split
  · have spec := refusals.stored_spec leads tidy plain r.code.toUTF8
    generalize refusals.stored t (base.append (dirs ++ [name])) _ = w at spec ⊢
    obtain ⟨e | _, u⟩ := w
    · exact ⟨spec.affects, spec.tidy⟩
    · exact ⟨spec.affects, spec.tidy⟩
  · exact ⟨.refl t, tidy⟩

theorem delivered_agree (ready : Ready refusals place dirs name t t') (leads : t.Leads base place)
    (leads' : t'.Leads base place) (tidy : t.Tidy) (tidy' : t'.Tidy) (plain : ".." ∉ dirs ++ [name])
    (same : t'.get? (place ++ (dirs ++ [name])) = t.get? (place ++ (dirs ++ [name]))) (r : Outcome) :
    let d := delivered refusals (base.append (dirs ++ [name])) r t
    let d' := delivered refusals (base.append (dirs ++ [name])) r t'
    d'.1 = d.1 ∧ d'.2.get? (place ++ (dirs ++ [name])) = d.2.get? (place ++ (dirs ++ [name])) := by
  dsimp only
  rw [delivered, delivered]
  split
  · obtain ⟨outcome, target⟩ := Refusals.stored_agree leads leads' tidy tidy' plain ready r.code.toUTF8
    generalize refusals.stored t (base.append (dirs ++ [name])) _ = w at outcome target ⊢
    generalize refusals.stored t' (base.append (dirs ++ [name])) _ = w' at outcome target ⊢
    obtain ⟨e | _, v⟩ := w <;> obtain ⟨e' | _, v'⟩ := w' <;> cases outcome
    · exact ⟨rfl, target same⟩
    · exact ⟨rfl, target same⟩
  · exact ⟨rfl, same⟩

theorem fileEnd_ends (refusals : Refusals) (packages : Packages) (leads : t.Leads base place) (tidy : t.Tidy)
    (plain : ".." ∉ dirs ++ [name]) (plain' : ∀ other ∈ sibling, ".." ∉ dirs ++ [other])
    (apart : ∀ other ∈ sibling, name ≠ other) (o : Options) (source : Path) :
    let r := fileEnd refusals packages o source (base.append (dirs ++ [name])) (besides base dirs sibling) t
    FileEnds refusals packages o t source (base.append (dirs ++ [name])) (besides base dirs sibling)
      (place ++ (dirs ++ [name])) (r.2.get? (place ++ (dirs ++ [name]))) r.1 := by
  dsimp only
  rw [fileEnd]
  cases read : refusals.read t source with
  | error e => exact .unread read rfl
  | ok content =>
      dsimp only
      cases decoded : Utf8.decode content with
      | error fault => exact .undecodable read decoded rfl
      | ok text =>
          dsimp only
          have target := traced_target refusals leads tidy plain' apart
            (Outcome.ofSource o (Text.unifyNewlines text) packages.parse).events
          obtain ⟨affects, tidy'⟩ := traced_spec refusals leads tidy plain'
            (Outcome.ofSource o (Text.unifyNewlines text) packages.parse).events
          rw [delivered]
          split
          · rename_i success
            have transformed := transform_eq_ok.2 ⟨success, rfl⟩
            have spec := refusals.stored_spec (leads.keep affects.keeps) tidy' plain
              (Outcome.ofSource o (Text.unifyNewlines text) packages.parse).code.toUTF8
            rw [← deposited] at spec ⊢
            rcases stored : deposited refusals packages o _ _ text t with ⟨e | _, u⟩
            · rw [stored] at spec
              exact .unwritten read decoded transformed (by rw [stored]) (target ▸ spec.spared e rfl)
            · rw [stored] at spec
              exact .written read decoded transformed (by rw [stored]) (spec.written rfl)
          · rename_i failed
            exact .untransformed read decoded (Bool.eq_false_iff.2 failed) target

theorem fileEnd_affects (refusals : Refusals) (packages : Packages) (leads : t.Leads base place) (tidy : t.Tidy)
    (plain : ".." ∉ dirs ++ [name]) (plain' : ∀ other ∈ sibling, ".." ∉ dirs ++ [other]) (o : Options)
    (source : Path) :
    let r := fileEnd refusals packages o source (base.append (dirs ++ [name])) (besides base dirs sibling) t
    Affects refusals (Way place dirs) (Touched place dirs name sibling) t r.2 ∧ r.2.Tidy := by
  dsimp only
  rw [fileEnd]
  cases refusals.read t source with
  | error e => exact ⟨.refl t, tidy⟩
  | ok content =>
      dsimp only
      cases Utf8.decode content with
      | error fault => exact ⟨.refl t, tidy⟩
      | ok text =>
          dsimp only
          generalize Outcome.ofSource o (Text.unifyNewlines text) packages.parse = r
          obtain ⟨affects, tidy'⟩ := traced_spec refusals leads tidy plain' r.events
          obtain ⟨own, tidied⟩ := delivered_affects refusals (leads.keep affects.keeps) tidy' plain r
          exact ⟨(affects.mono (fun _ => id) fun _ => .inr).trans
            (own.mono (fun _ => id) fun _ => .inl), tidied⟩

theorem fileEnd_eq_error_iff {o : Options} {source out : Path} {trace : Option Path} {crash : Crash} :
    (fileEnd refusals packages o source out trace t).1 = .error crash ↔
      ∃ content fault, refusals.read t source = .ok content ∧ Utf8.decode content = .error fault ∧
        crash = .undecodable fault := by
  rw [fileEnd]
  cases refusals.read t source with
  | error e => simp
  | ok content =>
      dsimp only
      cases decoded : Utf8.decode content <;> simp [decoded, eq_comm]

theorem fileEnd_barred (leads : t.Leads base place) (tidy : t.Tidy) (plain : ".." ∉ dirs ++ [name])
    (plain' : ∀ other ∈ sibling, ".." ∉ dirs ++ [other]) (apart : ∀ other ∈ sibling, name ≠ other)
    {o : Options} {source : Path} {q : List String} {content : ByteArray} (way : Way place dirs q)
    (found : t.get? q = some (.file content)) {r : FileResult} {t' : FileTree}
    (ended : fileEnd refusals packages o source (base.append (dirs ++ [name])) (besides base dirs sibling) t =
      (.ok r, t')) : r.success = false ∧ t'.get? (place ++ (dirs ++ [name])) = none := by
  obtain ⟨affects, tidy'⟩ := fileEnd_affects refusals packages leads tidy plain plain' o source
  have ends := fileEnd_ends refusals packages leads tidy plain plain' apart o source
  rw [ended] at affects tidy' ends
  have bare : t'.get? (place ++ (dirs ++ [name])) = none := by
    obtain ⟨_, still⟩ := affects.stays_file found
    obtain ⟨more, split, some⟩ := way.below name
    rw [split]
    exact tidy'.below (by rw [still]; nofun) some
  refine ⟨?_, bare⟩
  dsimp only at ends
  rw [bare] at ends
  cases ends with
  | unread | untransformed | unwritten => rfl
  | written _ _ _ _ there => cases there

theorem fileEnd_agree (ready : Ready refusals place dirs name t t') (leads : t.Leads base place)
    (leads' : t'.Leads base place) (tidy : t.Tidy) (tidy' : t'.Tidy) (plain : ".." ∉ dirs ++ [name])
    (plain' : ∀ other ∈ sibling, ".." ∉ dirs ++ [other]) (apart : ∀ other ∈ sibling, name ≠ other)
    (o : Options) (source : Path) (read : refusals.read t' source = refusals.read t source)
    (same : t'.get? (place ++ (dirs ++ [name])) = t.get? (place ++ (dirs ++ [name]))) :
    let r := fileEnd refusals packages o source (base.append (dirs ++ [name])) (besides base dirs sibling) t
    let r' := fileEnd refusals packages o source (base.append (dirs ++ [name])) (besides base dirs sibling) t'
    r'.1 = r.1 ∧ r'.2.get? (place ++ (dirs ++ [name])) = r.2.get? (place ++ (dirs ++ [name])) := by
  dsimp only
  rw [fileEnd, fileEnd, read]
  cases refusals.read t source with
  | error e => exact ⟨rfl, same⟩
  | ok content =>
      dsimp only
      cases Utf8.decode content with
      | error fault => exact ⟨rfl, same⟩
      | ok text =>
          dsimp only
          generalize Outcome.ofSource o (Text.unifyNewlines text) packages.parse = r
          obtain ⟨affects, tidied⟩ := traced_spec refusals leads tidy plain' r.events
          obtain ⟨affects', tidied'⟩ := traced_spec refusals leads' tidy' plain' r.events
          have target := traced_target refusals leads tidy plain' apart r.events
          have target' := traced_target refusals leads' tidy' plain' apart r.events
          obtain ⟨result, there⟩ := delivered_agree
            (traced_ready ready leads leads' tidy tidy' plain' apart r.events)
            (leads.keep affects.keeps) (leads'.keep affects'.keeps) tidied tidied' plain
            (target'.trans (same.trans target.symm)) r
          exact ⟨congrArg Except.ok result, there⟩

end JsxBoundary.CommandLine
