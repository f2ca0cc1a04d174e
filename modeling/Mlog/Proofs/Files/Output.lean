import Mlog.Proofs.Files.Place

/-!
# What a run does to the files

Everything but the last step of a command asks questions, and a question leaves the files as they
are (`Keeps`).  The last step of a compilation writes one file (`Wrote`).  So a run that checks or
fails changes nothing, and one that compiles changes the file that its output path leads to
(`run_changes_output`).

Nothing keeps that file from being the source.  The output path, if it is not given, is the input's
with the extension `mlog`, so a source that has this extension is overwritten
(`run_overwrites_source`).
-/
set_option autoImplicit false

namespace Mlog

namespace FileTree

variable {tree tree' : FileTree} {path text : String} {place : Place}

/-! ## Writing -/

/-- A tree after `text` was written to a path: the path leads to a file of this text, and the tree
is what it was everywhere else. -/
structure Wrote (tree tree' : FileTree) (path text : String) (place : Place) : Prop where
  leads : tree'.find path = .ok (.file place (.text text))
  others : ∀ other, other ≠ place → tree'.file? other = tree.file? other
  directories : tree'.directories = tree.directories

theorem file?_put (content : Content) (other : Place) :
    (tree.put place content).file? other =
      if other = place then some content else tree.file? other := by
  simp only [file?, put, List.find?_append]
  split
  · next h =>
    subst h
    have hnone : (tree.files.filter (·.1 != other)).find? (·.1 == other) = none := by
      rw [List.find?_eq_none]
      simp
    rw [hnone]
    simp
  · next h =>
    have hfind : (tree.files.filter (·.1 != place)).find? (·.1 == other) =
        tree.files.find? (·.1 == other) := by
      rw [List.find?_filter]
      congr 1
      funext f
      by_cases hf : f.1 = other <;> simp [hf, h]
    rw [hfind]
    cases tree.files.find? (·.1 == other) with
    | some f => rfl
    | none => simp [Ne.symm h]

/-- A directory stays one. -/
theorem isDirectory_put {content : Content} {directory : Place}
    (h : tree.isDirectory directory = true) :
    (tree.put place content).isDirectory directory = true := by
  simp only [isDirectory, put, Bool.or_eq_true, List.any_eq_true] at h ⊢
  rcases h with h | ⟨⟨p, c⟩, hmem, hp⟩
  · exact Or.inl h
  · refine Or.inr ?_
    by_cases hplace : p = place
    · subst hplace
      exact ⟨(p, content), by simp, hp⟩
    · exact ⟨(p, c), by simp [hmem, hplace], hp⟩

/-- What is at a place, as a look-up reports it. -/
inductive Shows (tree : FileTree) (place : Place) : Node → Prop where
  | file {content : Content} (hfile : tree.file? place = some content) :
    Shows tree place (.file place content)
  | directory (hfile : tree.file? place = none) (hdir : tree.isDirectory place = true) :
    Shows tree place (.directory place)
  | missing (hfile : tree.file? place = none) (hdir : tree.isDirectory place = false) :
    Shows tree place (.missing place)

theorem lookup_eq_ok_iff {directory : Place} {name : String} {node : Node} :
    tree.lookup directory name = .ok node ↔
      name.utf8ByteSize ≤ maxName ∧ Shows tree (directory ++ [name]) node := by
  unfold lookup
  constructor
  · intro h
    split at h
    · cases h
    · next hlong =>
      refine ⟨by omega, ?_⟩
      dsimp only at h
      cases hfile : tree.file? (directory ++ [name]) with
      | some content =>
        rw [hfile] at h
        cases h
        exact .file hfile
      | none =>
        rw [hfile] at h
        cases hdir : tree.isDirectory (directory ++ [name]) with
        | true =>
          rw [hdir] at h
          cases h
          exact .directory hfile hdir
        | false =>
          rw [hdir] at h
          cases h
          exact .missing hfile hdir
  · rintro ⟨hshort, hshows⟩
    rw [if_neg (by omega)]
    cases hshows with
    | file hfile => simp [hfile]
    | directory hfile hdir => simp [hfile, hdir]
    | missing hfile hdir => simp [hfile, hdir]

/-- Where a file may be put: at a place that is no directory. -/
def IsFree (tree : FileTree) (place : Place) : Prop := ¬ Shows tree place (.directory place)

/-- A step into a directory can still be made after a file was put at a free place. -/
theorem enter_put {content : Content} {directory next : Place} {part : String}
    (hfree : tree.IsFree place) (h : tree.enter directory part = .ok next) :
    (tree.put place content).enter directory part = .ok next := by
  unfold enter at h ⊢
  split at h
  · next hidle => rw [if_pos hidle, h]
  · next hidle =>
    rw [if_neg hidle]
    split at h
    · next hup => rw [if_pos hup, h]
    · next hup =>
      rw [if_neg hup]
      split at h
      · cases h
      · next found hfound =>
        obtain ⟨hshort, hshows⟩ := lookup_eq_ok_iff.mp hfound
        cases hshows with
        | directory hfile hdir =>
          have hne : directory ++ [part] ≠ place := by
            rintro rfl
            exact hfree (.directory hfile hdir)
          have hnext : (tree.put place content).lookup directory part =
              .ok (.directory (directory ++ [part])) := by
            refine lookup_eq_ok_iff.mpr ⟨hshort, .directory ?_ (isDirectory_put hdir)⟩
            rw [file?_put, if_neg hne, hfile]
          rw [hnext]
          exact h
      · cases h
      · cases h

theorem foldlM_enter_put {content : Content} (hfree : tree.IsFree place) {parts : List String}
    {start directory : Place} (h : parts.foldlM tree.enter start = .ok directory) :
    parts.foldlM (tree.put place content).enter start = .ok directory := by
  induction parts generalizing start with
  | nil => exact h
  | cons part parts ih =>
    rw [List.foldlM_cons] at h ⊢
    obtain ⟨next, hnext, h⟩ := Except.bind_eq_ok_iff.mp h
    exact Except.bind_eq_ok_iff.mpr ⟨next, enter_put hfree hnext, ih h⟩

theorem resolve_put {content : Content} (hfree : tree.IsFree place) {target : Target}
    (h : tree.resolve path = .ok target) :
    (tree.put place content).resolve path = .ok target := by
  have hparts : ∀ {start : Place} {parts : List String},
      tree.resolveParts start parts = .ok target →
        (tree.put place content).resolveParts start parts = .ok target := by
    intro start parts h
    unfold resolveParts at h ⊢
    dsimp only at h ⊢
    cases hlast : (dropEmpty parts).getLast? with
    | none =>
      rw [hlast] at h
      exact h
    | some last =>
      rw [hlast] at h
      obtain ⟨directory, hdirectory, h⟩ := Except.bind_eq_ok_iff.mp h
      exact Except.bind_eq_ok_iff.mpr ⟨directory, foldlM_enter_put hfree hdirectory, h⟩
  unfold resolve at h ⊢
  split at h
  · cases h
  next hlong =>
  rw [if_neg hlong]
  split at h
  · cases h
  · exact hparts h
  · exact hparts h

/-- What writing can do: put the file at the place that the path leads to. -/
theorem of_write (h : tree.write path text = .ok tree') :
    ∃ directory name, tree.resolve path = .ok (.name directory name false) ∧
      name.utf8ByteSize ≤ maxName ∧ tree.IsFree (directory ++ [name]) ∧
        tree' = tree.put (directory ++ [name]) (.text text) := by
  obtain ⟨target, htarget, h⟩ := Except.bind_eq_ok_iff.mp h
  split at h
  · cases h
  · cases h
  · next directory name =>
    obtain ⟨node, hnode, h⟩ := Except.bind_eq_ok_iff.mp h
    obtain ⟨hshort, hshows⟩ := lookup_eq_ok_iff.mp hnode
    refine ⟨directory, name, htarget, hshort, ?_⟩
    cases hshows with
    | directory => cases h
    | file hfile =>
      refine ⟨fun hdirectory => ?_, (Except.ok.inj h).symm⟩
      cases hdirectory with
      | directory hnone => exact absurd (hfile.symm.trans hnone) (by simp)
    | missing hnone hdir =>
      refine ⟨fun hdirectory => ?_, (Except.ok.inj h).symm⟩
      cases hdirectory with
      | directory _ hdir' => exact absurd (hdir.symm.trans hdir') (by simp)

/-- **Writing changes one file**, the one that the path leads to afterwards. -/
theorem wrote_of_write (h : tree.write path text = .ok tree') :
    ∃ directory name, tree.resolve path = .ok (.name directory name false) ∧
      Wrote tree tree' path text (directory ++ [name]) := by
  obtain ⟨directory, name, hresolve, hshort, hfree, rfl⟩ := of_write h
  refine ⟨directory, name, hresolve, ?_, fun other hne => ?_, rfl⟩
  · have hlookup : (tree.put (directory ++ [name]) (.text text)).lookup directory name =
        .ok (.file (directory ++ [name]) (.text text)) :=
      lookup_eq_ok_iff.mpr ⟨hshort, .file (by rw [file?_put, if_pos rfl])⟩
    unfold find
    rw [resolve_put hfree hresolve]
    exact Except.bind_eq_ok_iff.mpr ⟨_, rfl, Except.bind_eq_ok_iff.mpr ⟨_, hlookup, rfl⟩⟩
  · rw [file?_put, if_neg hne]

/-- A path that leads to a file ends in the file's name. -/
theorem of_find_file {content : Content} (h : tree.find path = .ok (.file place content)) :
    ∃ directory name, tree.resolve path = .ok (.name directory name false) ∧
      place = directory ++ [name] ∧ tree.file? place = some content := by
  obtain ⟨target, htarget, h⟩ := Except.bind_eq_ok_iff.mp h
  split at h
  · cases h
  · next directory name slash =>
    obtain ⟨node, hnode, h⟩ := Except.bind_eq_ok_iff.mp h
    obtain ⟨-, hshows⟩ := lookup_eq_ok_iff.mp hnode
    cases hshows with
    | directory => cases h
    | missing => cases h
    | file hfile =>
      cases slash with
      | true => cases h
      | false =>
        cases h
        exact ⟨directory, name, htarget, rfl, hfile⟩

end FileTree

/-! ## Questions -/

/-- An action on a tree of files that leaves it as it is. -/
def Keeps {α : Type} (x : StateM FileTree α) : Prop := ∀ tree, (x.run tree).2 = tree

namespace Keeps

variable {α β : Type}

theorem pure (a : α) : Keeps (Pure.pure a) := fun _ => rfl

theorem run_bind {x : StateM FileTree α} (h : Keeps x) (f : α → StateM FileTree β)
    (tree : FileTree) : (x >>= f).run tree = (f (x.run tree).1).run tree := by
  calc (x >>= f).run tree
      = (f (x.run tree).1).run (x.run tree).2 := rfl
    _ = (f (x.run tree).1).run tree := by rw [h tree]

theorem bind {x : StateM FileTree α} {f : α → StateM FileTree β} (hx : Keeps x)
    (hf : ∀ a, Keeps (f a)) : Keeps (x >>= f) := by
  intro tree
  rw [hx.run_bind]
  exact hf _ tree

theorem has (path : String) : Keeps (FileTree.system.has path) := fun _ => rfl

theorem read (path : String) : Keeps (FileTree.system.read path) := fun _ => rfl

theorem loadSettings (path : String) : Keeps (Run.loadSettings FileTree.system path) := by
  refine bind (has path) fun found => ?_
  split
  · refine bind (read path) fun content => ?_
    split
    · exact pure _
    · split <;> exact pure _
  · exact pure _

theorem unitSettings (unit : UnitRequest) : Keeps (Run.unitSettings FileTree.system unit) :=
  bind (loadSettings _) fun _ => pure _

theorem compileUnit (unit : UnitRequest) : Keeps (Run.compileUnit FileTree.system unit) := by
  refine bind (unitSettings unit) fun settings => ?_
  split
  · exact pure _
  · refine bind (read unit.input) fun source => ?_
    split
    · exact pure _
    · split <;> exact pure _

theorem checkCommand (unit : UnitRequest) : Keeps (Run.checkCommand FileTree.system unit) := by
  refine bind (compileUnit unit) fun result => ?_
  split <;> exact pure _

end Keeps

namespace FileTree

variable {tree : FileTree} {unit : UnitRequest} {output : Option String} {settings : Settings}
  {out : Compile.Output}

/-- The settings that apply to a unit, as the files and the command line give them. -/
def unitSettings (tree : FileTree) (unit : UnitRequest) : Except RunError Settings :=
  ((Run.unitSettings system unit).run tree).1

/-- What a unit is compiled to, from the files as they are. -/
theorem of_compileUnit (h : ((Run.compileUnit system unit).run tree).1 = .ok (settings, out)) :
    ∃ source, tree.unitSettings unit = .ok settings ∧ tree.read unit.input = .ok source ∧
      Compile.unit settings unit.input source {} = .ok out := by
  rw [Run.compileUnit, (Keeps.unitSettings unit).run_bind] at h
  cases hs : ((Run.unitSettings system unit).run tree).1 with
  | error e =>
    rw [hs] at h
    cases h
  | ok found =>
    rw [hs] at h
    dsimp only at h
    rw [(Keeps.read unit.input).run_bind] at h
    cases hr : ((system.read unit.input).run tree).1 with
    | error e =>
      rw [hr] at h
      cases h
    | ok source =>
      rw [hr] at h
      dsimp only at h
      cases hu : Compile.unit found unit.input source {} with
      | error e =>
        rw [hu] at h
        cases h
      | ok output =>
        rw [hu] at h
        cases h
        exact ⟨source, hs, hr, hu⟩

/-- The path that the output of a unit goes to. -/
def outputPath (unit : UnitRequest) (output : Option String) : String :=
  output.getD (Path.withExtension unit.input "mlog")

theorem run_write (tree : FileTree) (path text : String) :
    (system.write path text).run tree =
      ((tree.write path text).map fun _ => (), (tree.write path text).toOption.getD tree) := by
  cases h : tree.write path text with
  | error e =>
    simp only [system, StateT.run_bind, StateT.run_get, pure_bind, h]
    rfl
  | ok tree' =>
    simp only [system, StateT.run_bind, StateT.run_get, pure_bind, h]
    rfl

/-- A compilation fails and keeps the files, or it is written. -/
theorem compileCommand_cases {report : Report} {tree' : FileTree}
    (h : (Run.compileCommand system unit output).run tree = (report, tree')) :
    (report.exitCode ≠ 0 ∧ tree' = tree) ∨
      report.exitCode = 0 ∧ ∃ settings out,
        ((Run.compileUnit system unit).run tree).1 = .ok (settings, out) ∧
          tree.write (outputPath unit output) (Compile.render settings.options out.statements) =
            .ok tree' := by
  rw [Run.compileCommand, (Keeps.compileUnit unit).run_bind] at h
  cases hu : ((Run.compileUnit system unit).run tree).1 with
  | error e =>
    rw [hu] at h
    cases h
    exact Or.inl ⟨by simp [Report.failure], rfl⟩
  | ok result =>
    obtain ⟨settings, out⟩ := result
    rw [hu] at h
    dsimp only at h
    rw [StateT.run_bind, run_write] at h
    cases hw : tree.write (output.getD (Path.withExtension unit.input "mlog"))
        (Compile.render settings.options out.statements) with
    | error e =>
      rw [hw] at h
      cases h
      exact Or.inl ⟨by simp, rfl⟩
    | ok written =>
      rw [hw] at h
      cases h
      exact Or.inr ⟨rfl, settings, out, rfl, hw⟩

/-- **A run changes its output and nothing else.**  Arguments that make no command, a check, and a
compilation that fails leave every file as it is.  A compilation that succeeds writes the text of
what the unit is compiled to, at the place that the output path leads to.  Without an output path
this is not the place of the source, unless the source has the extension `mlog`: then its own path
is the output path. -/
theorem run_changes_output (tree : FileTree) (args : List String) :
    (Command.parse? args = none → (tree.run args).2 = tree) ∧
    (∀ unit, Command.parse? args = some (.check unit) → (tree.run args).2 = tree) ∧
    (∀ unit output, Command.parse? args = some (.compile unit output) →
      ((tree.run args).1.exitCode ≠ 0 → (tree.run args).2 = tree) ∧
      ((tree.run args).1.exitCode = 0 → ∃ settings source out place,
        tree.unitSettings unit = .ok settings ∧ tree.read unit.input = .ok source ∧
          Compile.unit settings unit.input source {} = .ok out ∧
          Wrote tree (tree.run args).2 (outputPath unit output)
            (Compile.render settings.options out.statements) place ∧
          (output = none → ¬ Path.HasExtension unit.input "mlog" → ∀ origin content,
            tree.find unit.input = .ok (.file origin content) →
              (tree.run args).2.file? origin = some content) ∧
          (output = none → Path.HasExtension unit.input "mlog" →
            outputPath unit output = unit.input))) := by
  have hprogram : ∀ command, Command.parse? args = some command →
      tree.run args = (Run.command system command).run tree := by
    intro command hcommand
    rw [FileTree.run, Run.program, hcommand]
  refine ⟨fun h => ?_, fun unit h => ?_, fun unit output h => ?_⟩
  · rw [FileTree.run, Run.program, h]
    rfl
  · rw [hprogram _ h]
    exact Keeps.checkCommand unit tree
  · rw [hprogram _ h]
    rcases compileCommand_cases (Prod.eta _).symm with ⟨hexit, htree⟩ |
      ⟨hexit, settings, out, hout, hwrite⟩
    · exact ⟨fun _ => htree, fun hzero => absurd hzero hexit⟩
    · refine ⟨fun hne => absurd hexit hne, fun _ => ?_⟩
      obtain ⟨source, hsettings, hread, hunit⟩ := of_compileUnit hout
      obtain ⟨directory, name, hresolve, hwrote⟩ := wrote_of_write hwrite
      refine ⟨settings, source, out, _, hsettings, hread, hunit, hwrote, ?_, ?_⟩
      · rintro rfl hext origin content hfind
        obtain ⟨directory', name', hresolve', rfl, hfile⟩ := of_find_file hfind
        obtain ⟨rfl, hname⟩ := resolve_withExtension (by decide) (by decide) hresolve' hresolve
        rw [← hfile]
        refine hwrote.others _ fun hsame => hext (hname.mp ?_)
        simpa using hsame.symm
      · rintro rfl hext
        exact (Path.withExtension_eq_self_iff (by decide)).mpr hext

/-- A source beside which its output appears. -/
theorem run_changes_output_beside :
    Command.parse? ["compile", "a.mlogx"] = some (.compile { input := "a.mlogx" } none) ∧
      ¬ Path.HasExtension "a.mlogx" "mlog" ∧
        (FileTree.run { files := [(["a.mlogx"], .text "set x 1")] }
          ["compile", "a.mlogx"]).2.file? ["a.mlogx"] = some (.text "set x 1") := by
  have hparse : Command.parse? ["compile", "a.mlogx"] =
      some (.compile { input := "a.mlogx" } none) := by decide +kernel
  have hext : ¬ Path.HasExtension "a.mlogx" "mlog" := by
    rw [← Path.withExtension_eq_self_iff (by decide)]
    decide +kernel
  refine ⟨hparse, hext, ?_⟩
  obtain ⟨settings, source, out, place, -, -, -, -, hkept, -⟩ :=
    ((run_changes_output { files := [(["a.mlogx"], .text "set x 1")] }
      ["compile", "a.mlogx"]).2.2 _ _ hparse).2 (by decide +kernel)
  exact hkept rfl hext ["a.mlogx"] (.text "set x 1") rfl

/-- A source with the extension of an output is overwritten by what it is compiled to. -/
theorem run_overwrites_source :
    Command.parse? ["compile", "a.mlog"] = some (.compile { input := "a.mlog" } none) ∧
      (FileTree.run { files := [(["a.mlog"], .text "set x 1")] } ["compile", "a.mlog"]).1.exitCode =
        0 ∧
      (FileTree.run { files := [(["a.mlog"], .text "set x 1")] } ["compile", "a.mlog"]).2.file?
        ["a.mlog"] = some (.text "set x 1\n") := by
  decide +kernel

end FileTree

end Mlog
