import Seanet.Build

set_option autoImplicit false

namespace Seanet

namespace Path

theorem prefix_of_mem_lineage {p q : Path} (h : q ∈ lineage p) : q <+: p := by
  obtain ⟨n, -, rfl⟩ := List.mem_map.1 h
  exact List.take_prefix _ _

theorem ne_of_mem_lineage_dropLast {p q : Path} (h : q ∈ lineage p.dropLast) :
    q <+: p ∧ q ≠ p := by
  have habove := prefix_of_mem_lineage h
  refine ⟨habove.trans (List.dropLast_prefix p), ?_⟩
  rintro rfl
  have hlength := habove.length_le
  cases q with
  | nil => simp [lineage] at h
  | cons name q =>
    simp only [List.length_dropLast, List.length_cons] at hlength
    omega

theorem go_of_name {name : Text} (p : Path) (hempty : name.isEmpty = false)
    (hdot : name ≠ dot) (hdots : name ≠ dotDot) : p.go name = p ++ [name] := by
  simp [go, hempty, hdot, hdots]

end Path

namespace FileSystem

variable (fs : FileSystem)

theorem exists_of_find {t : Text} {e : Entry} (h : fs.find t = .ok e) : fs.exists? t = true := by
  rw [exists?, h]
  rfl

theorem exists_of_isDirectory {t : Text} (h : fs.isDirectory t = true) : fs.exists? t = true := by
  unfold isDirectory at h
  cases hfind : fs.find t with
  | error fault => simp [hfind] at h
  | ok e => exact fs.exists_of_find hfind

theorem exists_of_read {t : Text} {content : List UInt8} (h : fs.read t = .ok content) :
    fs.exists? t = true := by
  unfold read at h
  cases hfind : fs.find t with
  | error fault => simp [hfind] at h
  | ok e => exact fs.exists_of_find hfind

theorem exists_of_source {t : Text} {source : Source} (h : fs.source t = .ok source) :
    fs.exists? t = true := by
  unfold FileSystem.source at h
  cases hread : fs.read t with
  | error cause => simp [hread] at h
  | ok content => exact fs.exists_of_read hread

theorem directory_of_above {p : Path} (h : p <+: fs.home) : fs.entry? p = some .directory := by
  simp [ entry?, List.isPrefixOf_iff_prefix.2 h]

theorem lookup_of_not_above {p : Path} (h : ¬p <+: fs.home) :
    fs.entry? p = fs.entries.lookup p := by
  simp [ entry?, List.isPrefixOf_iff_prefix, h]

theorem lookup_cons_ite (p q : Path) (e : Entry) (entries : List (Path × Entry)) :
    ((p, e) :: entries).lookup q = if q = p then some e else entries.lookup q := by
  rw [List.lookup_cons]
  by_cases h : q = p
  · simp [h]
  · simp [h, beq_eq_false_iff_ne.2 h]

theorem lookup_put (entries : List (Path × Entry)) (p q : Path) (e : Entry) :
    (entries.filter (·.1 != p) ++ [(p, e)]).lookup q =
      if q = p then some e else entries.lookup q := by
  induction entries with
  | nil => exact lookup_cons_ite p q e []
  | cons first entries ih =>
    obtain ⟨r, f⟩ := first
    by_cases hr : r = p
    · have hdrop : ((r, f) :: entries).filter (·.1 != p) = entries.filter (·.1 != p) := by
        simp [hr]
      rw [hdrop, ih, lookup_cons_ite, hr]
      split <;> rfl
    · have hkeep : ((r, f) :: entries).filter (·.1 != p) =
          (r, f) :: entries.filter (·.1 != p) := by
        simp [hr]
      rw [hkeep, List.cons_append, lookup_cons_ite, ih, lookup_cons_ite]
      by_cases hq : q = r
      · simp [hq, hr]
      · simp [hq]

theorem entry?_put {p : Path} (h : ¬p <+: fs.home) (e : Entry) (q : Path) :
    entry? (fs.put p e) q = if q = p then some e else fs.entry? q := by
  by_cases hq : q <+: fs.home
  · have hne : q ≠ p := fun hqp => h (hqp ▸ hq)
    rw [if_neg hne, directory_of_above fs hq]
    exact directory_of_above (fs.put p e) hq
  · rw [lookup_of_not_above (fs.put p e) hq, lookup_of_not_above fs hq]
    exact lookup_put fs.entries p q e

theorem not_above_home {p : Path} (h : fs.entry? p ≠ some .directory) :
    ¬p <+: fs.home :=
  fun habove => h (directory_of_above fs habove)

/-- There is a new directory at `p`, above the target. -/
def NewAbove (before after : FileSystem) (target p : Path) : Prop :=
  before.entry? p = none ∧ after.entry? p = some .directory ∧ p <+: target ∧ p ≠ target

def AddsAbove (before after : FileSystem) (target : Path) : Prop :=
  ∀ p, after.entry? p = before.entry? p ∨ NewAbove before after target p

def addDirectory (p : Path) : FileSystem :=
  if (fs.entry? p).isSome then fs else fs.put p .directory

theorem addDirectory_home (p : Path) : (fs.addDirectory p).home = fs.home := by
  unfold addDirectory
  split <;> rfl

theorem entry?_addDirectory (p q : Path) :
    entry? (fs.addDirectory p) q =
      if q = p ∧ fs.entry? q = none then some .directory else fs.entry? q := by
  unfold addDirectory
  cases hp : fs.entry? p with
  | some e =>
    have hq : ¬(q = p ∧ fs.entry? q = none) := by
      rintro ⟨rfl, hnone⟩
      simp [hp] at hnone
    rw [if_neg hq]
    rfl
  | none =>
    have hprefix : ¬p <+: fs.home := fs.not_above_home (by simp [hp])
    rw [if_neg (by simp), entry?_put fs hprefix]
    by_cases hq : q = p
    · simp [hq, hp]
    · simp [hq]

theorem addDirectories_home (ps : List Path) : (ps.foldl addDirectory fs).home = fs.home := by
  induction ps generalizing fs with
  | nil => rfl
  | cons p ps ih => rw [List.foldl_cons, ih, addDirectory_home]

theorem entry?_addDirectories (ps : List Path) (q : Path) :
    entry? (ps.foldl addDirectory fs) q =
      if q ∈ ps ∧ fs.entry? q = none then some .directory else fs.entry? q := by
  induction ps generalizing fs with
  | nil => simp
  | cons p ps ih =>
    rw [List.foldl_cons, ih, entry?_addDirectory]
    cases hq : fs.entry? q with
    | some e => simp
    | none => by_cases hp : q = p <;> simp [hp]

theorem makeDirectory_ok {p : Path} {after : FileSystem} (h : fs.makeDirectory p = .ok after) :
    after = (Path.lineage p).foldl addDirectory fs := by
  unfold makeDirectory at h
  split at h
  · cases h
  · split at h
    · cases h
    · exact (Except.ok.inj h).symm

theorem makeDirectory_home {p : Path} {after : FileSystem} (h : fs.makeDirectory p = .ok after) :
    after.home = fs.home := by
  rw [fs.makeDirectory_ok h]
  exact addDirectories_home fs _

theorem makeDirectory_addsAbove {target : Path} {after : FileSystem}
    (h : fs.makeDirectory target.dropLast = .ok after) : AddsAbove fs after target := by
  intro p
  have hentry := entry?_addDirectories fs (Path.lineage target.dropLast) p
  rw [← fs.makeDirectory_ok h] at hentry
  split at hentry
  · rename_i hp
    exact .inr ⟨hp.2, hentry, Path.ne_of_mem_lineage_dropLast hp.1⟩
  · exact .inl hentry

theorem AddsAbove.refl (target : Path) : AddsAbove fs fs target := fun _ => .inl rfl

variable {fs} {after : FileSystem} {p q : Path} {steps : List Text}

theorem step_of_directory (name : Text) (h : fs.entry? p = some .directory) :
    fs.step p name = .ok (p.go name) := by
  simp [step, h]

theorem walk_cons_of_directory (name : Text) (h : fs.entry? p = some .directory) :
    fs.walk p (name :: steps) = fs.walk (p.go name) steps := by
  change fs.step p name >>= _ = _
  rw [step_of_directory name h]
  rfl

theorem walk_cons_ok {name : Text} (h : fs.walk p (name :: steps) = .ok q) :
    fs.entry? p = some .directory ∧ fs.walk (p.go name) steps = .ok q := by
  have hp : fs.entry? p = some .directory := by
    change fs.step p name >>= _ = _ at h
    rcases hp : fs.entry? p with _ | _ | _
    · simp [step, hp, bind, Except.bind] at h
    · simp [step, hp, bind, Except.bind] at h
    · rfl
  exact ⟨hp, (walk_cons_of_directory name hp).symm.trans h⟩

theorem walk_eq_foldl (h : fs.walk p steps = .ok q) : q = steps.foldl Path.go p := by
  induction steps generalizing p with
  | nil => exact (Except.ok.inj h).symm
  | cons name steps ih => exact ih (walk_cons_ok h).2

theorem walk_of_directories
    (hkeep : ∀ r, fs.entry? r = some .directory → after.entry? r = some .directory)
    (h : fs.walk p steps = .ok q) : after.walk p steps = .ok q := by
  induction steps generalizing p with
  | nil => exact h
  | cons name steps ih =>
    obtain ⟨hp, hrest⟩ := walk_cons_ok h
    rw [walk_cons_of_directory name (hkeep p hp)]
    exact ih hrest

theorem walk_snoc {name : Text} (h : fs.walk p steps = .ok q)
    (hq : fs.entry? q = some .directory) : fs.walk p (steps ++ [name]) = .ok (q.go name) := by
  induction steps generalizing p with
  | nil =>
    obtain rfl := Except.ok.inj h
    exact walk_cons_of_directory name hq
  | cons first steps ih =>
    obtain ⟨hp, hrest⟩ := walk_cons_ok h
    rw [List.cons_append, walk_cons_of_directory first hp]
    exact ih hrest

theorem not_isEmpty_of_dropWhile {steps above : List Text} {name : Text}
    (h : steps.dropWhile List.isEmpty = name :: above) : name.isEmpty = false := by
  have hhead := List.head?_dropWhile_not List.isEmpty steps
  simpa [h] using hhead

/-- A written path that leads to a place for a file: the name in a directory that is there. -/
structure LeadsTo (fs : FileSystem) (t : Text) (above : List Text) (name : Text) (p : Path) :
    Prop where
  written : t.isEmpty = false
  steps : Path.steps t = above ++ [name]
  walk : fs.walk (fs.origin t) above = .ok p
  directory : fs.entry? p = some .directory
  last : p.go name = p ++ [name]
  free : fs.entry? (p ++ [name]) ≠ some .directory

theorem LeadsTo.resolve {t : Text} {above : List Text} {name : Text}
    (h : fs.LeadsTo t above name p) : Path.resolve fs.home t = p ++ [name] := by
  unfold Path.resolve
  rw [h.steps, List.foldl_append, ← h.last, walk_eq_foldl h.walk]
  rfl

theorem write_ok {t : Text} {content : List UInt8} (h : fs.write t content = .ok after) :
    ∃ above name p, fs.LeadsTo t above name p ∧
      after = fs.put (p ++ [name]) (.file content) := by
  unfold write at h
  simp only [bind, Except.bind, pure, Except.pure] at h
  split at h
  · cases h
  rename_i ht
  cases hsteps : (Path.steps t).reverse.dropWhile List.isEmpty with
  | nil => simp [hsteps, throw, throwThe, MonadExceptOf.throw] at h
  | cons name above =>
    simp only [hsteps] at h
    split at h
    · cases h
    rename_i p hwalk
    rcases hp : fs.entry? p with _ | _ | _
    · simp [hp, throw, throwThe, MonadExceptOf.throw] at h
    · simp [hp, throw, throwThe, MonadExceptOf.throw] at h
    simp only [hp] at h
    split at h
    · cases h
    rename_i hname
    simp only [Bool.or_eq_true, Bool.not_eq_true', List.isEmpty_eq_false_iff, beq_iff_eq, not_or,
      Decidable.not_not] at hname
    obtain ⟨⟨htrailing, hdot⟩, hdots⟩ := hname
    have hreverse : (Path.steps t).reverse = name :: above := by
      rw [← List.takeWhile_append_dropWhile (p := List.isEmpty) (l := (Path.steps t).reverse),
        htrailing, hsteps, List.nil_append]
    split at h
    · cases h
    rename_i hfree
    exact ⟨above.reverse, name, p,
      { written := by simpa using ht
        steps := by rw [← List.reverse_reverse (Path.steps t), hreverse, List.reverse_cons]
        walk := hwalk
        directory := hp
        last := Path.go_of_name p (not_isEmpty_of_dropWhile hsteps) hdot hdots
        free := fun hdirectory => hfree hdirectory },
      (Except.ok.inj h).symm⟩

theorem write_eq_put {t : Text} {content : List UInt8} (h : fs.write t content = .ok after) :
    fs.entry? (Path.resolve fs.home t) ≠ some .directory ∧
      after = fs.put (Path.resolve fs.home t) (.file content) := by
  obtain ⟨above, name, p, hleads, hafter⟩ := write_ok h
  rw [hleads.resolve]
  exact ⟨hleads.free, hafter⟩

theorem find_of_walk {t : Text} {e : Entry} (ht : t.isEmpty = false)
    (hwalk : fs.walk (fs.origin t) (Path.steps t) = .ok p) (he : fs.entry? p = some e) :
    fs.find t = .ok e := by
  simp [find, ht, hwalk, he, bind, Except.bind, pure, Except.pure]

theorem read_of_write {t : Text} {content : List UInt8} (h : fs.write t content = .ok after) :
    after.read t = .ok content := by
  obtain ⟨above, name, p, hleads, hafter⟩ := write_ok h
  have hentry : ∀ r, after.entry? r =
      if r = p ++ [name] then some (.file content) else fs.entry? r := by
    rw [hafter]
    exact entry?_put fs (fs.not_above_home hleads.free) _
  have hkeep : ∀ r, fs.entry? r = some .directory → after.entry? r = some .directory := by
    intro r hr
    have hne : r ≠ p ++ [name] := fun heq => hleads.free (heq ▸ hr)
    rw [hentry, if_neg hne, hr]
  have hwalk : after.walk (fs.origin t) (Path.steps t) = .ok (p ++ [name]) := by
    rw [hleads.steps, ← hleads.last]
    exact walk_snoc (walk_of_directories hkeep hleads.walk) (hkeep p hleads.directory)
  have horigin : after.origin t = fs.origin t := by
    rw [hafter]
    rfl
  have hfind : after.find t = .ok (.file content) :=
    find_of_walk hleads.written (by rw [horigin, hwalk]) (by rw [hentry, if_pos rfl])
  rw [read, hfind]

end FileSystem

namespace Generator

open FileSystem

variable {order : Order} {fs : FileSystem}

/-- What the stand-in can come to: nothing is made, or only directories, or the artifact too. -/
theorem standIn_cases (order : Order) (fs : FileSystem) :
    let target := Path.resolve fs.home order.outputPath
    (∃ cause, standIn order fs = (fs, some cause)) ∨
    ∃ made, fs.makeDirectory target.dropLast = .ok made ∧
      ((∃ cause, standIn order fs = (made, some cause)) ∨
      ∃ after, made.write order.outputPath
          (Utf8.encode (Artifact.fileText ⟨order.name, order.kind⟩)) = .ok after ∧
        standIn order fs = (after, none)) := by
  unfold standIn
  simp only
  split
  · exact .inl ⟨_, rfl⟩
  · rename_i made hmade
    refine .inr ⟨made, hmade, ?_⟩
    split
    · exact .inl ⟨_, rfl⟩
    · rename_i after hafter
      exact .inr ⟨after, hafter, rfl⟩

theorem standIn_program (program program' : Program Token) (output : Text) (kind : OutputKind)
    (name : Text) (fs : FileSystem) :
    standIn ⟨program, output, kind, name⟩ fs = standIn ⟨program', output, kind, name⟩ fs := rfl

theorem standIn_failed {cause : Text} (h : (standIn order fs).2 = some cause) :
    AddsAbove fs (standIn order fs).1 (Path.resolve fs.home order.outputPath) := by
  obtain ⟨_, hs⟩ | ⟨made, hmade, ⟨_, hs⟩ | ⟨after, -, hs⟩⟩ := standIn_cases order fs
  · rw [hs]
    exact AddsAbove.refl fs _
  · rw [hs]
    exact makeDirectory_addsAbove fs hmade
  · rw [hs] at h
    cases h

theorem standIn_done (h : (standIn order fs).2 = none) :
    (standIn order fs).1.read order.outputPath =
      .ok (Utf8.encode (Artifact.fileText ⟨order.name, order.kind⟩)) := by
  obtain ⟨_, hs⟩ | ⟨made, hmade, ⟨_, hs⟩ | ⟨after, hafter, hs⟩⟩ := standIn_cases order fs
  · rw [hs] at h
    cases h
  · rw [hs] at h
    cases h
  · rw [hs]
    exact read_of_write hafter

theorem standIn_elsewhere (order : Order) (fs : FileSystem) {p : Path}
    (hp : p ≠ Path.resolve fs.home order.outputPath) :
    entry? (standIn order fs).1 p = fs.entry? p ∨
      NewAbove fs (standIn order fs).1 (Path.resolve fs.home order.outputPath) p := by
  obtain ⟨_, hs⟩ | ⟨made, hmade, hmore⟩ := standIn_cases order fs
  · rw [hs]
    exact .inl rfl
  have hadds := makeDirectory_addsAbove fs hmade p
  obtain ⟨_, hs⟩ | ⟨after, hafter, hs⟩ := hmore
  · rw [hs]
    exact hadds
  · obtain ⟨hfree, rfl⟩ := write_eq_put hafter
    rw [fs.makeDirectory_home hmade] at hfree hs
    have hsame : entry? (standIn order fs).1 p = made.entry? p := by
      rw [hs, entry?_put made (made.not_above_home hfree), if_neg hp]
    unfold NewAbove
    rw [hsame]
    exact hadds

end Generator

end Seanet
