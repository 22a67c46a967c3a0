import Seanet.Config.Load
import Seanet.Proofs.File.Effects

set_option autoImplicit false

namespace Seanet

namespace Config

def understood {α : Type} (members : List (Text × Value)) (key : String)
    (read : Value → Option α) : Option α :=
  (member? members key).bind read

def complaint (path : Text) (key : String) (expected : Text) : Text :=
  path ++ ": \"" ++ key ++ "\" must be " ++ expected

section

variable {α β : Type} {key : String} {expected path : Text} {members : List (Text × Value)}
  {read : Value → Option α} {set : α → Config → Config} {c : Configured}

theorem option_config : (option key expected path members read set c).config =
    ((understood members key read).map fun a => set a c.config).getD c.config := by
  unfold option understood
  cases hvalue : member? members key with
  | none => rfl
  | some v => cases hread : read v <;> simp [hread]

theorem option_sets (field : Config → α) (h : ∀ a c, field (set a c) = a) :
    field (option key expected path members read set c).config =
      (understood members key read).getD (field c.config) := by
  rw [option_config]
  cases understood members key read with
  | none => rfl
  | some a => exact h a c.config

theorem option_keeps (field : Config → β) (h : ∀ a c, field (set a c) = field c) :
    field (option key expected path members read set c).config = field c.config := by
  rw [option_config]
  cases understood members key read with
  | none => rfl
  | some a => exact h a c.config

theorem option_warnings : (option key expected path members read set c).warnings =
    c.warnings ++ if (member? members key).any fun v => (read v).isNone then
      [complaint path key expected] else [] := by
  unfold option
  cases hvalue : member? members key with
  | none => simp
  | some v => cases hread : read v <;> simp [complaint, hread]

end

/-- An option of a configuration file: its key, what is expected there and what counts as that. -/
structure Setting where
  key : String
  expected : Text
  understands : Value → Bool

def settings : List Setting := [
  ⟨"format", "one of pretty, plain, json, compact", fun v => v.format?.isSome⟩,
  ⟨"color", "one of auto, always, never", fun v => v.color?.isSome⟩,
  ⟨"library", "true or false", fun v => v.bool?.isSome⟩,
  ⟨"include", "a string or a list of strings", fun v => v.texts?.isSome⟩,
  ⟨"ignore", "a string or a list of strings", fun v => v.texts?.isSome⟩]

variable (path : Text) (members : List (Text × Value))

def Setting.isMisused (s : Setting) : Bool :=
  (member? members s.key).any fun v => !s.understands v

def complaints : List Text :=
  settings.flatMap fun s => if s.isMisused members then [complaint path s.key s.expected] else []

/-- Each option has the value that its key is given, or else its default. -/
structure Honours (c : Config) : Prop where
  format : c.format = (understood members "format" Value.format?).getD default.format
  color : c.color = (understood members "color" Value.color?).getD default.color
  library : c.library = (understood members "library" Value.bool?).getD default.library
  included : c.included = (understood members "include" Value.texts?).getD default.included
  ignored : c.ignored = (understood members "ignore" Value.texts?).getD default.ignored

theorem ofMembers_config : Honours members (ofMembers path members).config where
  format := by
    unfold ofMembers
    rw [option_keeps Config.format, option_keeps Config.format, option_keeps Config.format,
      option_keeps Config.format, option_sets Config.format]
    · rfl
    all_goals exact fun _ _ => rfl
  color := by
    unfold ofMembers
    rw [option_keeps Config.color, option_keeps Config.color, option_keeps Config.color,
      option_sets Config.color, option_keeps Config.color]
    · rfl
    all_goals exact fun _ _ => rfl
  library := by
    unfold ofMembers
    rw [option_keeps Config.library, option_keeps Config.library, option_sets Config.library,
      option_keeps Config.library, option_keeps Config.library]
    · rfl
    all_goals exact fun _ _ => rfl
  included := by
    unfold ofMembers
    rw [option_keeps Config.included, option_sets Config.included, option_keeps Config.included,
      option_keeps Config.included, option_keeps Config.included]
    · rfl
    all_goals exact fun _ _ => rfl
  ignored := by
    unfold ofMembers
    rw [option_sets Config.ignored, option_keeps Config.ignored, option_keeps Config.ignored,
      option_keeps Config.ignored, option_keeps Config.ignored]
    · rfl
    all_goals exact fun _ _ => rfl

theorem ofMembers_warnings : (ofMembers path members).warnings = complaints path members := by
  have hformats : (Text.ofString "one of " ++ names (Format.all.map Format.name) : Text) =
      "one of pretty, plain, json, compact" := by
    decide +kernel
  have hcolors : (Text.ofString "one of " ++ names (ColorMode.all.map ColorMode.name) : Text) =
      "one of auto, always, never" := by
    decide +kernel
  unfold ofMembers
  simp only [option_warnings, hformats, hcolors, Configured.default, complaints, settings,
    Setting.isMisused, Option.not_isSome, List.flatMap_cons, List.flatMap_nil, List.append_nil,
    List.nil_append, List.append_assoc]

/-- What is made of a text that is read without throwing. -/
structure Tolerates {ε : Type} (r : Reading ε) (c : Configured) : Prop where
  faults : r.faults ≠ [] → c = ⟨.default, r.faults.map (Fault.warning path)⟩
  empty : r.faults = [] → r.value = .ok .null → c = ⟨.default, []⟩
  shape : r.faults = [] → ∀ v, r.value = .ok v → v ≠ .null → (∀ members, v ≠ .record members) →
    c = ⟨.default, [path ++ ": expected a mapping of options at the top level"]⟩
  keys : r.faults = [] → ∀ members, r.value = .ok (.record members) →
    Honours members c.config ∧ c.warnings = complaints path members

section

variable {path : Text} {ε : Type} {r : Reading ε} {c : Configured}

theorem ofReading_of_faults (h : r.faults ≠ []) :
    ofReading path r = .ok ⟨.default, r.faults.map (Fault.warning path)⟩ := by
  rw [ofReading, if_pos (by simpa using h)]

theorem ofReading_error_iff {cause : ε} :
    ofReading path r = .error cause ↔ r.faults = [] ∧ r.value = .error cause := by
  by_cases hfaults : r.faults = []
  · rw [ofReading, if_neg (by simp [hfaults])]
    rcases r.value with _ | (_ | _ | _ | _ | _ | _) <;> simp [hfaults]
  · simp [ofReading_of_faults hfaults, hfaults]

theorem ofReading_ok (h : ofReading path r = .ok c) : Tolerates path r c := by
  by_cases hfaults : r.faults = []
  · rw [ofReading, if_neg (by simp [hfaults])] at h
    refine ⟨fun hne => absurd hfaults hne, fun _ hnull => ?_, fun _ v hv hnull hrecord => ?_,
      fun _ members hmembers => ?_⟩
    · rw [hnull] at h
      exact (Except.ok.inj h).symm
    · rw [hv] at h
      cases v with
      | null => exact absurd rfl hnull
      | record members => exact absurd rfl (hrecord members)
      | text | bool | list | other => exact (Except.ok.inj h).symm
    · rw [hmembers] at h
      obtain rfl := Except.ok.inj h
      exact ⟨ofMembers_config path members, ofMembers_warnings path members⟩
  · rw [ofReading_of_faults hfaults] at h
    obtain rfl := Except.ok.inj h
    exact ⟨fun _ => rfl, fun h => absurd h hfaults, fun h => absurd h hfaults,
      fun h => absurd h hfaults⟩

end

/-- In place of the value of a text without faults nothing is thrown but that an alias in it has no
anchor. -/
def Reader.ThrowsForAliases (reader : Reader) : Prop :=
  ∀ text cause, (reader text).faults = [] → (reader text).value = .error cause →
    ∃ missing : UnresolvedAlias, cause = missing.message

end Config

theorem Yaml.reader_throwsForAliases : Yaml.reader.ThrowsForAliases := by
  intro text cause _ h
  cases hvalue : (Yaml.read text).value with
  | ok v =>
    simp only [Yaml.reader, hvalue] at h
    cases h
  | error missing =>
    simp only [Yaml.reader, hvalue] at h
    exact ⟨missing, (Except.error.inj h).symm⟩

namespace FileSystem

variable {fs : FileSystem} {reader : Config.Reader} {path : Text} {c : Configured}

def configText (content : List UInt8) : Text := (Utf8.decode content).withoutMark

theorem configWith_of_missing (h : fs.exists? path = false) :
    fs.configWith reader path = .ok .default := by
  simp [configWith, h]

theorem configWith_of_unreadable {cause : Text} (hpath : fs.exists? path = true)
    (hread : fs.read path = .error cause) :
    fs.configWith reader path = .error (.unreadable cause) := by
  simp [configWith, hpath, hread]

theorem configWith_of_read {content : List UInt8} (hread : fs.read path = .ok content) :
    fs.configWith reader path =
      (Config.ofReading path (reader (configText content))).mapError .unresolved := by
  simp [configWith, configText, fs.exists_of_read hread, hread]

/-- No configuration comes of a file in two cases only: it is there and cannot be read, or its text
has no faults and the reader throws. -/
theorem configWith_error_iff {fault : ConfigFault} : fs.configWith reader path = .error fault ↔
    (∃ cause, fs.exists? path = true ∧ fs.read path = .error cause ∧ fault = .unreadable cause) ∨
    ∃ content cause, fs.read path = .ok content ∧ (reader (configText content)).faults = [] ∧
      (reader (configText content)).value = .error cause ∧ fault = .unresolved cause := by
  constructor
  · intro h
    by_cases hpath : fs.exists? path
    · cases hread : fs.read path with
      | error cause =>
        rw [configWith_of_unreadable hpath hread] at h
        exact .inl ⟨cause, hpath, rfl, (Except.error.inj h).symm⟩
      | ok content =>
        rw [configWith_of_read hread] at h
        cases hreading : Config.ofReading path (reader (configText content)) with
        | error cause =>
          rw [hreading] at h
          obtain ⟨hfaults, hvalue⟩ := Config.ofReading_error_iff.1 hreading
          exact .inr ⟨content, cause, rfl, hfaults, hvalue, (Except.error.inj h).symm⟩
        | ok c =>
          rw [hreading] at h
          cases h
    · rw [configWith_of_missing (by simpa using hpath)] at h
      cases h
  · rintro (⟨cause, hpath, hread, rfl⟩ | ⟨content, cause, hread, hfaults, hvalue, rfl⟩)
    · exact configWith_of_unreadable hpath hread
    · rw [configWith_of_read hread, Config.ofReading_error_iff.2 ⟨hfaults, hvalue⟩]
      rfl

theorem configWith_tolerates (h : fs.configWith reader path = .ok c) {content : List UInt8}
    (hread : fs.read path = .ok content) :
    Config.Tolerates path (reader (configText content)) c := by
  rw [configWith_of_read hread] at h
  cases hreading : Config.ofReading path (reader (configText content)) with
  | error cause =>
    rw [hreading] at h
    cases h
  | ok c' =>
    rw [hreading] at h
    obtain rfl := Except.ok.inj h
    exact Config.ofReading_ok hreading

end FileSystem

end Seanet
