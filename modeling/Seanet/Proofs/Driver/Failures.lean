import Seanet.Proofs.Driver.Accounting

set_option autoImplicit false

namespace Seanet

namespace Glob

/-- A search throws for an empty pattern, and for nothing else. -/
def Finder.RefusesEmpty (finder : Finder) : Prop :=
  ∀ fs root included ignored failure, finder fs root included ignored = .error failure ↔
    [] ∈ included ∧ failure = emptyPattern

theorem find_refusesEmpty : Finder.RefusesEmpty find := by
  intro fs root included ignored failure
  have hany : included.any List.isEmpty = true ↔ [] ∈ included := by
    simp [List.any_eq_true, List.isEmpty_iff]
  rw [← hany]
  unfold find
  by_cases h : included.any List.isEmpty
  · rw [if_pos h]
    constructor
    · intro herror
      exact ⟨h, (Except.error.inj herror).symm⟩
    · rintro ⟨-, rfl⟩
      rfl
  · rw [if_neg h]
    refine ⟨fun herror => ?_, fun hany => absurd hany.1 h⟩
    cases herror

end Glob

namespace Driver

section

variable {fs : FileSystem} {o : Options} {config : Config} {finder : Glob.Finder} {r : Run}

theorem conclusion_warnings (units : List Compilation) (n : Nat) :
    (Run.conclusion units n).1.flatMap warningsIn = [] := by
  simp only [Run.conclusion]
  split <;> simp [List.flatMap_map, warningsIn]

theorem Performs.warnings {g : Generator} (h : Performs fs o config g finder r) :
    r.events.flatMap warningsIn = [] := by
  cases h with
  | missing | notDirectory | badPattern | incomplete | unreadable | failed => rfl
  | checked =>
    simp [Run.concluded, scanning, conclusion_warnings, warningsIn, List.flatMap_map]
  | listed =>
    simp [Run.concluded, conclusion_warnings, warningsIn, List.flatMap_map]
  | unclean | generated => exact conclusion_warnings _ _

theorem configWarnings_warnings (c : Configured) :
    (fs.configWarnings o c).flatMap warningsIn =
      c.warnings.map (fun t => Text.ofString "Failed to read config: " ++ t) ++
        ((Options.given o.config).filter (!fs.exists? ·)).toList.map
          fun path => Text.ofString "Config file not found: " ++ path := by
  unfold FileSystem.configWarnings
  cases (Options.given o.config).filter (!fs.exists? ·) <;>
    simp [List.flatMap_map, warningsIn, ← List.map_eq_flatMap]

variable {e : Environment} {g : Generator} {reader : Config.Reader} {c : Configured} {t : Thrown}

theorem invoke_of_config_error {fault : ConfigFault}
    (hc : fs.configWith reader (o.configPath fs.home) = .error fault) :
    (invoke e g reader finder o fs).1 = .error (.breakdown (.config fault)) := by
  rw [invoke_eq]
  simp only [FileSystem.runWith, hc]
  rfl

theorem invoke_of_failure {failure : Glob.Failure}
    (hc : fs.configWith reader (o.configPath fs.home) = .ok c) (hworkspace : o.workspace = true)
    (hroot : fs.isDirectory o.input = true)
    (hfailure : finder fs (Path.resolve fs.home o.input) c.config.included c.config.ignored =
      .error failure) :
    (invoke e g reader finder o fs).1 = .error (.breakdown (.pattern failure)) := by
  have hexists := fs.exists_of_isDirectory hroot
  rw [invoke_eq]
  simp only [FileSystem.runWith, hc, FileSystem.perform, hexists, Options.task, hworkspace,
    FileSystem.check, hroot, hfailure, if_true]
  rfl

/-- Whatever the reader and the finder are: nothing is thrown but what keeps a configuration file
from giving a configuration, and what the search of a workspace throws. -/
theorem invoke_error_iff : (invoke e g reader finder o fs).1 = .error t ↔
    (∃ fault, fs.configWith reader (o.configPath fs.home) = .error fault ∧
      t = .breakdown (.config fault)) ∨
    ∃ c failure, fs.configWith reader (o.configPath fs.home) = .ok c ∧ o.workspace = true ∧
      fs.isDirectory o.input = true ∧
      finder fs (Path.resolve fs.home o.input) c.config.included c.config.ignored =
        .error failure ∧
      t = .breakdown (.pattern failure) := by
  constructor
  · intro ht
    cases hc : fs.configWith reader (o.configPath fs.home) with
    | error fault =>
      rw [invoke_of_config_error hc] at ht
      exact .inl ⟨fault, rfl, (Except.error.inj ht).symm⟩
    | ok c =>
      obtain ⟨v, hv⟩ | ⟨failure, hthrown, hworkspace, hroot, hfailure⟩ :=
        invoke_of_config e g finder hc
      · rw [hv] at ht
        cases ht
      · rw [hthrown] at ht
        exact .inr ⟨c, failure, rfl, hworkspace, hroot, hfailure, (Except.error.inj ht).symm⟩
  · rintro (⟨fault, hfault, rfl⟩ | ⟨c, failure, hc, hworkspace, hroot, hfailure, rfl⟩)
    · exact invoke_of_config_error hfault
    · exact invoke_of_failure hc hworkspace hroot hfailure

/-- What is thrown where the reader throws for aliases alone and the finder for empty patterns. -/
inductive Escapes (fs : FileSystem) (o : Options) (reader : Config.Reader) : Thrown → Prop where
  | unreadable {cause : Text} (hpath : fs.exists? (o.configPath fs.home) = true)
      (hread : fs.read (o.configPath fs.home) = .error cause) :
      Escapes fs o reader (.breakdown (.config (.unreadable cause)))
  | missingAnchor {content : List UInt8} {missing : UnresolvedAlias}
      (hread : fs.read (o.configPath fs.home) = .ok content)
      (hfaults : (reader (FileSystem.configText content)).faults = [])
      (hvalue : (reader (FileSystem.configText content)).value = .error missing.message) :
      Escapes fs o reader (.breakdown (.config (.unresolved missing.message)))
  | pattern {c : Configured} (hc : fs.configWith reader (o.configPath fs.home) = .ok c)
      (hworkspace : o.workspace = true) (hroot : fs.isDirectory o.input = true)
      (hempty : [] ∈ c.config.included) :
      Escapes fs o reader (.breakdown (.pattern Glob.emptyPattern))

theorem invoke_error_iff_escapes (hreader : reader.ThrowsForAliases)
    (hfinder : finder.RefusesEmpty) :
    (invoke e g reader finder o fs).1 = .error t ↔ Escapes fs o reader t := by
  rw [invoke_error_iff]
  constructor
  · rintro (⟨fault, hfault, rfl⟩ | ⟨c, failure, hc, hworkspace, hroot, hfailure, rfl⟩)
    · obtain ⟨cause, hpath, hread, rfl⟩ | ⟨content, cause, hread, hfaults, hvalue, rfl⟩ :=
        FileSystem.configWith_error_iff.1 hfault
      · exact .unreadable hpath hread
      · obtain ⟨missing, rfl⟩ := hreader _ _ hfaults hvalue
        exact .missingAnchor hread hfaults hvalue
    · obtain ⟨hempty, rfl⟩ := (hfinder _ _ _ _ _).1 hfailure
      exact .pattern hc hworkspace hroot hempty
  · intro h
    cases h with
    | unreadable hpath hread =>
      exact .inl ⟨_, FileSystem.configWith_error_iff.2 (.inl ⟨_, hpath, hread, rfl⟩), rfl⟩
    | missingAnchor hread hfaults hvalue =>
      exact .inl ⟨_, FileSystem.configWith_error_iff.2 (.inr ⟨_, _, hread, hfaults, hvalue, rfl⟩),
        rfl⟩
    | pattern hc hworkspace hroot hempty =>
      exact .inr ⟨_, _, hc, hworkspace, hroot, (hfinder _ _ _ _ _).2 ⟨hempty, rfl⟩, rfl⟩

theorem exists_found (hfinder : finder.RefusesEmpty) (fs : FileSystem) (root : Path)
    {included : List Text} (ignored : List Text) (h : [] ∉ included) :
    ∃ paths, finder fs root included ignored = .ok paths := by
  cases hfound : finder fs root included ignored with
  | ok paths => exact ⟨paths, rfl⟩
  | error failure => exact absurd ((hfinder _ _ _ _ _).1 hfound).1 h

/-- Where the files of a workspace are found, each fault of reading them is told, and a fault makes
the invocation fail. -/
theorem invoke_of_found {paths : List Text}
    (hc : fs.configWith reader (o.configPath fs.home) = .ok c) (hworkspace : o.workspace = true)
    (hroot : fs.isDirectory o.input = true)
    (hfound : finder fs (Path.resolve fs.home o.input) c.config.included c.config.ignored =
      .ok paths) :
    let out := invoke e .standIn reader finder o fs
    ∃ v files, out.1 = .ok v ∧ files.Perm paths ∧
      out.2.errors = (faultsOf fs files).map FileAccessError.message ∧
      (faultsOf fs files ≠ [] → v = .failure) := by
  intro out
  obtain ⟨r, hr, hcame⟩ := invoke_cameTo e .standIn finder hc
  obtain ⟨v, hv⟩ | ⟨failure, -, -, -, hfailure⟩ := invoke_of_config e .standIn finder hc
  · have houtcome : r.outcome = .ok v := ok_of_mapError (hr.symm.trans hv)
    obtain ⟨paths', hmatches, hreports⟩ :=
      hcame.performed.reports (no_problem_of_directory hworkspace hroot) houtcome
    rw [Matches, if_pos hworkspace, hfound] at hmatches
    obtain rfl := Except.ok.inj hmatches
    refine ⟨v, paths.mergeSort Text.le, hv, List.mergeSort_perm _ _,
      (hcame.accounts hreports).errors, fun hfaults => ?_⟩
    cases v with
    | failure => rfl
    | success =>
      have hclean := (clean_iff fs _).2 (hreports.verdict.1 rfl)
      exact absurd (List.length_eq_zero_iff.1 hclean.2) hfaults
  · rw [hfound] at hfailure
    cases hfailure

end

/-- What goes wrong with input and output ends as one error, what goes wrong with the configuration
as warnings, but for three cases in which it is thrown. -/
theorem failures_contained {reader : Config.Reader} {finder : Glob.Finder}
    (hreader : reader.ThrowsForAliases) (hfinder : finder.RefusesEmpty) (e : Environment)
    (o : Options) (fs : FileSystem) :
    let path := o.configPath fs.home
    let out := invoke e .standIn reader finder o fs
    (∀ t, out.1 = .error t ↔ Escapes fs o reader t) ∧
    (∀ v, out.1 = .ok v → v.exitCode = 0 ∨ v.exitCode = 1) ∧
    ∀ c, fs.configWith reader path = .ok c →
      (fs.exists? path = false → c = .default) ∧
      (∀ content, fs.read path = .ok content →
        Config.Tolerates path (reader (FileSystem.configText content)) c) ∧
      out.2.warnings = c.warnings.map (fun t => Text.ofString "Failed to read config: " ++ t) ++
        ((Options.given o.config).filter (!fs.exists? ·)).toList.map
          (fun path => Text.ofString "Config file not found: " ++ path) ∧
      (Problem fs o c.config .standIn →
        out.1 = .ok .failure ∧ Stops (e.display o c.config) .failure out.2) ∧
      (o.workspace = true → fs.isDirectory o.input = true → [] ∉ c.config.included →
        ∃ paths v files, finder fs (Path.resolve fs.home o.input) c.config.included
            c.config.ignored = .ok paths ∧
          out.1 = .ok v ∧ files.Perm paths ∧
          out.2.errors = (faultsOf fs files).map FileAccessError.message ∧
          (faultsOf fs files ≠ [] → v = .failure)) := by
  intro path out
  refine ⟨fun t => invoke_error_iff_escapes hreader hfinder, ?_, ?_⟩
  · intro v _
    cases v
    · exact .inl rfl
    · exact .inr rfl
  intro c hc
  obtain ⟨r, hr, hcame⟩ := invoke_cameTo e .standIn finder hc
  refine ⟨?_, fun content hread => FileSystem.configWith_tolerates hc hread, ?_, ?_, ?_⟩
  · intro hmissing
    exact Except.ok.inj (hc.symm.trans (FileSystem.configWith_of_missing hmissing))
  · rw [hcame.warnings, List.flatMap_append, hcame.performed.warnings, List.append_nil,
      configWarnings_warnings]
  · intro hproblem
    obtain ⟨-, hfailure, message, hevents⟩ | hnot := hcame.performed.stops_or_no_problem
    · refine ⟨?_, hcame.stops rfl hevents⟩
      rw [show out.1 = _ from hr, hfailure]
      rfl
    · exact absurd hproblem hnot
  · intro hworkspace hroot hempty
    obtain ⟨paths, hfound⟩ :=
      exists_found hfinder fs (Path.resolve fs.home o.input) c.config.ignored hempty
    obtain ⟨v, files, hv, hperm, herrors, hverdict⟩ := invoke_of_found hc hworkspace hroot hfound
    exact ⟨paths, v, files, hfound, hv, hperm, herrors, hverdict⟩

/-- A file is to be checked as a workspace, and the configuration gives a colour that is none. -/
theorem failures_contained_file :
    let fs : FileSystem := ⟨["w"], [(["w", "main.sn"], .file []),
      (["w", "seanet.yml"], .file (Utf8.encode "color: blue"))]⟩
    let o : Options := ⟨"main.sn", none, none, none, none, none, none, true⟩
    let e : Environment := ⟨⟨false, false, false⟩, "1", 0, 0, 0⟩
    Yaml.reader.ThrowsForAliases ∧ Glob.Finder.RefusesEmpty Glob.find ∧
    ∃ w, invoke e .standIn Yaml.reader Glob.find o fs = (.ok .failure, w) ∧
      Stops (e.display o .default) .failure w ∧
      w.warnings = ["Failed to read config: /w/seanet.yml: \"color\" must be one of " ++
        "auto, always, never"] := by
  intro fs o e
  have hc : fs.configWith Yaml.reader (o.configPath fs.home) =
      .ok ⟨.default, ["/w/seanet.yml: \"color\" must be one of auto, always, never"]⟩ :=
    ok_of_toOption (by decide +kernel)
  obtain ⟨-, -, hgiven⟩ := failures_contained Yaml.reader_throwsForAliases Glob.find_refusesEmpty
    e o fs
  obtain ⟨-, -, hwarnings, hproblem, -⟩ := hgiven _ hc
  obtain ⟨hfailure, hstops⟩ := hproblem (.notDirectory rfl (by decide +kernel))
  refine ⟨Yaml.reader_throwsForAliases, Glob.find_refusesEmpty, _, Prod.ext hfailure rfl, hstops,
    ?_⟩
  rw [hwarnings]
  decide +kernel

/-- A directory in place of a configuration file, an alias without its anchor, and a workspace with
an empty pattern: no invocation on them returns. -/
theorem config_problems_escape :
    let e : Environment := ⟨⟨false, false, false⟩, "1", 0, 0, 0⟩
    let main : Path × Entry := (["w", "main.sn"], .file [])
    let file (text : Text) : Path × Entry := (["w", "seanet.yml"], .file (Utf8.encode text))
    let listing : Options := ⟨"main.sn", none, none, none, none, none, some "ast", false⟩
    (invoke e .standIn Yaml.reader Glob.find { listing with config := some "conf" }
      ⟨["w"], [main, (["w", "conf"], .directory)]⟩).1 =
        .error (.breakdown (.config (.unreadable
          "EISDIR: illegal operation on a directory, read"))) ∧
    (invoke e .standIn Yaml.reader Glob.find listing
      ⟨["w"], [main, file "format: *missing"]⟩).1 =
        .error (.breakdown (.config (.unresolved
          "Unresolved alias (the anchor must be set before the alias): missing"))) ∧
    (invoke e .standIn Yaml.reader Glob.find { listing with input := ".", workspace := true }
      ⟨["w"], [main, file "include: ''"]⟩).1 =
        .error (.breakdown (.pattern
          ⟨"Patterns must be a string (non empty) or an array of strings"⟩)) := by
  intro e main file listing
  refine ⟨?_, ?_, ?_⟩
  · refine invoke_of_config_error (FileSystem.configWith_of_unreadable (by decide +kernel) ?_)
    rfl
  · refine invoke_of_config_error ?_
    decide +kernel
  · let o : Options := { listing with input := ".", workspace := true }
    let fs : FileSystem := ⟨["w"], [main, file "include: ''"]⟩
    have hc : fs.configWith Yaml.reader (o.configPath fs.home) =
        .ok ⟨{ Config.default with included := [[]] }, []⟩ :=
      ok_of_toOption (by decide +kernel)
    exact invoke_of_failure hc rfl (by decide +kernel)
      ((Glob.find_refusesEmpty _ _ _ _ _).2 ⟨List.mem_singleton.2 rfl, rfl⟩)

end Driver

end Seanet
