import Seanet.Proofs.Config.Problems
import Seanet.Proofs.Driver.Artifact
import Seanet.Proofs.Driver.Outcomes
import Seanet.Proofs.Tree.Faithful

set_option autoImplicit false

namespace Seanet

namespace Driver

open FileSystem (NewAbove AddsAbove)

/-- One file is to be built, it can be read, and scanning and parsing it report nothing. -/
structure Qualifies (fs : FileSystem) (o : Options) (output : Text) (source : Source)
    (program : Program Token) : Prop extends Builds o output where
  readable : fs.source o.input = .ok source
  scanned : source.scan.reports = []
  parsed : parseProgram source.name source.scan.tokens = .ok program

section

variable {fs : FileSystem} {o : Options} {output : Text} {source : Source}
  {program : Program Token} {config : Config} {g : Generator} {finder : Glob.Finder} {r : Run}

theorem compile_of_qualifies (h : Qualifies fs o output source program) :
    source.compile.log = [] ∧ source.compile.program = program := by
  have hprogram : source.compile.program = program := by
    simp [Source.compile, h.parsed, Parsed.settle]
  refine ⟨compile_log_eq_nil.2 ⟨h.scanned, ?_⟩, hprogram⟩
  rw [hprogram, h.parsed]

theorem qualifies_of_clean (hbuild : Builds o output) (hsource : fs.source o.input = .ok source)
    (hlog : source.compile.log = []) :
    Qualifies fs o output source source.compile.program where
  toBuilds := hbuild
  readable := hsource
  scanned := (compile_log_eq_nil.1 hlog).1
  parsed := (compile_log_eq_nil.1 hlog).2

theorem Qualifies.unique {output' : Text} {source' : Source} {program' : Program Token}
    (h : Qualifies fs o output source program) (h' : Qualifies fs o output' source' program') :
    output' = output ∧ source' = source ∧ program' = program := by
  obtain rfl : output' = output := Option.some.inj (h'.output.symm.trans h.output)
  obtain rfl : source' = source := Except.ok.inj (h'.readable.symm.trans h.readable)
  exact ⟨rfl, rfl, Except.ok.inj (h'.parsed.symm.trans h.parsed)⟩

theorem conclusion_of_clean {unit : Compilation} (h : unit.log = []) :
    (Run.conclusion [unit] 0).2 = .success ∧
      (Run.conclusion [unit] 0).1.flatMap diagnosedIn = [] := by
  simp [Run.conclusion, Compilation.report, h, diagnosedIn]

theorem conclusion_of_unclean {unit : Compilation} (h : unit.log ≠ []) :
    (Run.conclusion [unit] 0).2 = .failure := by
  simp [Run.conclusion, Compilation.report, h]

/-- A run in which the code generator is called. -/
structure Generates (fs : FileSystem) (g : Generator) (order : Order) (r : Run) : Prop where
  ordered : r.order = some order
  files : r.files = (g order fs).1
  silent : r.events.flatMap diagnosedIn = []
  outcome : (g order fs).2 = none ∧ r.outcome = .ok .success ∨
    ∃ cause, (g order fs).2 = some cause ∧ r.outcome = .ok .failure ∧
      r.events = [.error (FileAccessError.message ⟨.write, order.outputPath, cause⟩)]

/-- A run in which it is not called. -/
structure Abstains (fs : FileSystem) (o : Options) (r : Run) : Prop where
  unqualified : ∀ output source program, ¬Qualifies fs o output source program
  unordered : r.order = none
  files : r.files = fs
  outcome : o.workspace = false → Options.given o.emit = none → r.outcome = .ok .failure

theorem Performs.generation (h : Performs fs o config g finder r) :
    (∃ output source program, Qualifies fs o output source program ∧
      Generates fs g ⟨program, output, o.kind config, Path.stem (Path.baseName o.input)⟩ r) ∨
    Abstains fs o r := by
  cases h with
  | missing hinput =>
    refine .inr ⟨fun output source program hq => ?_, rfl, rfl, fun _ _ => rfl⟩
    simp [fs.exists_of_source hq.readable] at hinput
  | notDirectory hworkspace hroot =>
    refine .inr ⟨fun output source program hq => ?_, rfl, rfl, fun _ _ => rfl⟩
    simp [hq.alone] at hworkspace
  | badPattern hworkspace hroot hfound =>
    refine .inr ⟨fun output source program hq => ?_, rfl, rfl, fun halone => ?_⟩
    · simp [hq.alone] at hworkspace
    · simp [halone] at hworkspace
  | checked hworkspace hroot hfound =>
    refine .inr ⟨fun output source program hq => ?_, rfl, rfl, fun halone => ?_⟩
    · simp [hq.alone] at hworkspace
    · simp [halone] at hworkspace
  | incomplete halone hemit houtput =>
    refine .inr ⟨fun output source program hq => ?_, rfl, rfl, fun _ _ => rfl⟩
    simp [hq.output] at houtput
  | unreadable halone hsource =>
    refine .inr ⟨fun output source program hq => ?_, rfl, rfl, fun _ _ => rfl⟩
    simp [hq.readable] at hsource
  | listed halone hemit hsource =>
    refine .inr ⟨fun output source program hq => ?_, rfl, rfl, fun _ hnone => ?_⟩
    · simp [hq.unlisted] at hemit
    · simp [hnone] at hemit
  | unclean hbuild hsource hlog =>
    refine .inr ⟨fun output source program hq => ?_, rfl, rfl, fun _ _ => ?_⟩
    · obtain rfl := Except.ok.inj (hsource.symm.trans hq.readable)
      exact hlog (compile_of_qualifies hq).1
    · exact congrArg Except.ok (conclusion_of_unclean hlog)
  | generated hbuild hsource hlog hdone =>
    have hclean := conclusion_of_clean hlog
    exact .inl ⟨_, _, _, qualifies_of_clean hbuild hsource hlog, rfl, rfl, hclean.2,
      .inl ⟨hdone, congrArg Except.ok hclean.1⟩⟩
  | failed hbuild hsource hlog hfailed =>
    exact .inl ⟨_, _, _, qualifies_of_clean hbuild hsource hlog, rfl, rfl, rfl,
      .inr ⟨_, hfailed, rfl, rfl⟩⟩

variable {order : Order}

theorem Generates.failure_iff {g : Generator} (h : Generates fs g order r) :
    r.outcome = .ok .failure ↔ ∃ cause, (g order fs).2 = some cause := by
  obtain ⟨hdone, hsuccess⟩ | ⟨cause, hcause, hfailure, -⟩ := h.outcome
  · rw [hsuccess, hdone]
    simp
  · exact iff_of_true hfailure ⟨cause, hcause⟩

theorem Generates.failed {cause : Text} (h : Generates fs .standIn order r)
    (hcause : (Generator.standIn order fs).2 = some cause) :
    r.events.flatMap errorsIn = [FileAccessError.message ⟨.write, order.outputPath, cause⟩] ∧
      AddsAbove fs r.files (Path.resolve fs.home order.outputPath) := by
  obtain ⟨hdone, -⟩ | ⟨cause', hcause', -, hevents⟩ := h.outcome
  · rw [hcause] at hdone
    cases hdone
  · obtain rfl := Option.some.inj (hcause.symm.trans hcause')
    rw [hevents, h.files]
    exact ⟨rfl, Generator.standIn_failed hcause⟩

theorem Generates.succeeded {name : Text} {library : Bool}
    (h : Generates fs .standIn ⟨program, output, Artifact.kindOf library, name⟩ r)
    (hr : r.outcome = .ok .success) :
    ∃ content, r.files.read output = .ok content ∧ Artifact.HeldBy name library content := by
  obtain ⟨hdone, -⟩ | ⟨_, -, hfailure, -⟩ := h.outcome
  · rw [h.files]
    exact ⟨_, Generator.standIn_done hdone, Artifact.heldBy_encode name library⟩
  · rw [hfailure] at hr
    cases hr

end

theorem invoke_of_qualifies {e : Environment} {reader : Config.Reader} {finder : Glob.Finder}
    {o : Options} {fs : FileSystem} {c : Configured} {output : Text} {source : Source}
    {program : Program Token} (hc : fs.configWith reader (o.configPath fs.home) = .ok c)
    (hq : Qualifies fs o output source program)
    (hdone : (Generator.standIn
      ⟨program, output, o.kind c.config, Path.stem (Path.baseName o.input)⟩ fs).2 = none) :
    (invoke e .standIn reader finder o fs).1 = .ok .success := by
  obtain ⟨r, hr, hcame⟩ := invoke_cameTo e .standIn finder hc
  obtain ⟨_, _, _, hq', hg⟩ | ha := hcame.performed.generation
  · obtain ⟨rfl, rfl, rfl⟩ := hq.unique hq'
    obtain ⟨-, hsuccess⟩ | ⟨_, hcause, -, -⟩ := hg.outcome
    · rw [hr, hsuccess]
      rfl
    · rw [hdone] at hcause
      cases hcause
  · exact absurd hq (ha.unqualified _ _ _)

/-- The code generator is called for nothing but a program without errors that is to be built, and
then once; success means that the artifact is there. Nothing changes but the output file, and
directories may appear above it. -/
theorem generation_gated {e : Environment} {reader : Config.Reader} {finder : Glob.Finder}
    {o : Options} {fs : FileSystem} {v : Verdict} {w : World}
    (h : invoke e .standIn reader finder o fs = (.ok v, w)) :
    ∃ c, fs.configWith reader (o.configPath fs.home) = .ok c ∧
    let name := Path.stem (Path.baseName o.input)
    let library := o.library.getD c.config.library
    let kind := if library then OutputKind.library else .executable
    (w.orders ≠ [] ↔ ∃ output source program, Qualifies fs o output source program) ∧
    (∀ output source program, Qualifies fs o output source program →
      w.orders = [⟨program, output, kind, name⟩]) ∧
    (o.workspace = false → Options.given o.emit = none → v = .success →
      ∃ output content, Options.given o.output = some output ∧
        w.files.read output = .ok content ∧ Artifact.HeldBy name library content) ∧
    (∀ p, (∀ output, Options.given o.output = some output → p ≠ Path.resolve fs.home output) →
      w.files.entry? p = fs.entry? p ∨ ∃ output, Options.given o.output = some output ∧
        NewAbove fs w.files (Path.resolve fs.home output) p) ∧
    ((w.diagnosed ≠ [] ∨ (∀ source, fs.source o.input ≠ .ok source) ∨
        Options.given o.output = none ∨ Options.given o.emit ≠ none ∨ o.workspace = true) →
      w.files = fs) ∧
    ∀ output source program, Qualifies fs o output source program →
      let written := (Generator.standIn ⟨program, output, kind, name⟩ fs).2
      (v = .failure ↔ ∃ cause, written = some cause) ∧
      ∀ cause, written = some cause →
        w.errors = [FileAccessError.message ⟨.write, output, cause⟩] ∧
        AddsAbove fs w.files (Path.resolve fs.home output) := by
  obtain ⟨c, r, hcame, hv⟩ := invoke_returns h
  refine ⟨c, hcame.config, ?_⟩
  intro name library kind
  rw [hcame.orders, hcame.files, hcame.diagnosed, hcame.errors]
  obtain ⟨output, source, program, hq, hg⟩ | ha := hcame.performed.generation
  · refine ⟨?_, ?_, ?_, ?_, ?_, ?_⟩
    · rw [hg.ordered]
      exact ⟨fun _ => ⟨output, source, program, hq⟩, fun _ => by simp⟩
    · intro output' source' program' hq'
      obtain ⟨rfl, rfl, rfl⟩ := hq.unique hq'
      rw [hg.ordered]
      rfl
    · intro _ _ hsuccess
      obtain ⟨content, hread, hheld⟩ := hg.succeeded (by rw [hv, hsuccess])
      exact ⟨output, content, hq.output, hread, hheld⟩
    · intro p hp
      rw [hg.files]
      obtain hsame | hnew := Generator.standIn_elsewhere
        ⟨program, output, o.kind c.config, name⟩ fs (hp output hq.output)
      · exact .inl hsame
      · exact .inr ⟨output, hq.output, hnew⟩
    · intro hnot
      obtain hd | hd | hd | hd | hd := hnot
      · exact absurd hg.silent hd
      · exact absurd hq.readable (hd source)
      · simp [hq.output] at hd
      · exact absurd hq.unlisted hd
      · simp [hq.alone] at hd
    · intro output' source' program' hq' written
      obtain ⟨rfl, rfl, rfl⟩ := hq.unique hq'
      have hverdict : v = .failure ↔ r.outcome = .ok .failure := by simp [hv]
      exact ⟨hverdict.trans hg.failure_iff, fun cause hcause => hg.failed hcause⟩
  · rw [ha.files, ha.unordered]
    refine ⟨?_, ?_, ?_, fun _ _ => .inl rfl, fun _ => rfl, ?_⟩
    · refine ⟨fun hnil => absurd rfl hnil, ?_⟩
      rintro ⟨output, source, program, hq⟩
      exact absurd hq (ha.unqualified output source program)
    · intro output source program hq
      exact absurd hq (ha.unqualified output source program)
    · intro halone hemit hsuccess
      rw [ha.outcome halone hemit, hsuccess] at hv
      cases hv
    · intro output source program hq
      exact absurd hq (ha.unqualified output source program)

/-- An empty struct is built into a directory that is not there yet. -/
theorem generation_gated_struct :
    let fs : FileSystem := ⟨["w"], [(["w", "a.sn"], .file (Utf8.encode "struct A\x7b\x7d"))]⟩
    let o : Options := ⟨"a.sn", some "out/a.json", none, none, none, none, none, false⟩
    let e : Environment := ⟨⟨false, false, false⟩, "1", 0, 0, 0⟩
    ∃ w content, invoke e .standIn Yaml.reader Glob.find o fs = (.ok .success, w) ∧ w.orders ≠ [] ∧
      w.files.read "out/a.json" = .ok content ∧ Artifact.HeldBy "a" false content := by
  intro fs o e
  let source : Source := ⟨"a.sn", "struct A\x7b\x7d"⟩
  have hconfig : fs.configWith Yaml.reader (o.configPath fs.home) = .ok .default :=
    FileSystem.configWith_of_missing (by decide +kernel)
  have hsource : fs.source o.input = .ok source := by
    have hread : fs.read "a.sn" = .ok (Utf8.encode source.text) := rfl
    have htext : (Utf8.decode (Utf8.encode source.text)).withoutMark = source.text := by
      decide +kernel
    simp only [FileSystem.source, o, hread, htext]
    rfl
  have hlog : source.compile.log = [] :=
    compile_emptyStruct (by decide +kernel) (by decide +kernel)
  have hbuild : Builds o "out/a.json" := ⟨rfl, rfl, rfl⟩
  have hq := qualifies_of_clean hbuild hsource hlog
  have hdone : (Generator.standIn ⟨.empty, "out/a.json", .executable, "a"⟩ fs).2 = none := by
    decide +kernel
  rw [Generator.standIn_program _ source.compile.program] at hdone
  have hreturns : invoke e .standIn Yaml.reader Glob.find o fs =
      (.ok .success, (invoke e .standIn Yaml.reader Glob.find o fs).2) :=
    Prod.ext (invoke_of_qualifies hconfig hq hdone) rfl
  obtain ⟨c, hc, hordered, -, hread, -⟩ := generation_gated hreturns
  obtain rfl : c = .default := Except.ok.inj (hc.symm.trans hconfig)
  obtain ⟨output, content, houtput, hcontent, hheld⟩ := hread rfl rfl rfl
  obtain rfl := Option.some.inj houtput
  exact ⟨_, content, hreturns, hordered.2 ⟨_, _, _, hq⟩, hcontent, hheld⟩

end Driver

end Seanet
