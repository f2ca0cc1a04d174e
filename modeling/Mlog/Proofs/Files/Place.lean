import Mlog.Proofs.Except
import Mlog.Proofs.Instruction.Shorthand
import Mlog.Proofs.Text.Words
import Mlog.Run

/-!
# Paths and the places they lead to

A path is a way and a name: the name is what follows the last slash (`Path.Named`).  Another
extension changes the name and keeps the way, so the path with another extension leads to the same
directory, and to the same name there only if it had the extension before
(`resolve_withExtension`).
-/
set_option autoImplicit false

namespace Mlog

/-! ## Ways and names -/

namespace Path

/-- A path is a name at the end of a way, which is empty or ends in a slash. -/
structure Named (path : String) (way name : List Char) : Prop where
  split : path.toList = way ++ name
  name : '/' ∉ name
  way : way = [] ∨ ∃ directory, way = directory ++ ['/']

theorem exists_named (path : String) : ∃ way name, Named path way name := by
  by_cases h : '/' ∈ path.toList
  · obtain ⟨directory, name, heq, hname⟩ := Text.exists_last h
    exact ⟨directory ++ ['/'], name, by simpa using heq, hname, Or.inr ⟨directory, rfl⟩⟩
  · exact ⟨[], path.toList, rfl, h, Or.inl rfl⟩

variable {path : String} {way name : List Char}

theorem Named.withExtension (h : Named path way name) (extension : String) :
    withExtension path extension =
      String.ofList (way ++ renameExtension name extension.toList) := by
  unfold Path.withExtension
  rcases h.way with rfl | ⟨directory, rfl⟩
  · rw [h.split, List.nil_append, Text.cutLast_eq_none h.name]
    rfl
  · rw [h.split, List.append_assoc, List.singleton_append, Text.cutLast_append _ h.name]
    simp

/-- A name has an extension if it stands behind its last dot, and something before that. -/
def HasExtension (path extension : String) : Prop :=
  ∃ way stem, Named path way (stem ++ '.' :: extension.toList) ∧ stem ≠ []

theorem renameExtension_eq_self_iff {extension : List Char} (hdot : '.' ∉ extension) :
    renameExtension name extension = name ↔
      ∃ stem, stem ≠ [] ∧ name = stem ++ '.' :: extension := by
  by_cases h : '.' ∈ name
  · obtain ⟨stem, last, rfl, hlast⟩ := Text.exists_last h
    rw [renameExtension, Text.cutLast_append _ hlast]
    constructor
    · intro heq
      cases stem with
      | nil => simp at heq
      | cons c stem => exact ⟨c :: stem, by simp, heq.symm⟩
    · rintro ⟨stem', hne, heq⟩
      have hcut := congrArg (Text.cutLast '.') heq
      rw [Text.cutLast_append _ hlast, Text.cutLast_append _ hdot] at hcut
      obtain ⟨rfl, rfl⟩ := Prod.mk.inj (Option.some.inj hcut)
      simp [hne]
  · rw [renameExtension, Text.cutLast_eq_none h]
    refine iff_of_false (by simp) ?_
    rintro ⟨stem, -, rfl⟩
    simp at h

/-- A path stays as it is with an extension that it has, and only then. -/
theorem withExtension_eq_self_iff {extension : String} (hdot : '.' ∉ extension.toList) :
    withExtension path extension = path ↔ HasExtension path extension := by
  constructor
  · intro heq
    obtain ⟨way, name, h⟩ := exists_named path
    rw [h.withExtension, ← String.toList_inj, String.toList_ofList, h.split,
      List.append_cancel_left_eq, renameExtension_eq_self_iff hdot] at heq
    obtain ⟨stem, hne, rfl⟩ := heq
    exact ⟨way, stem, h, hne⟩
  · rintro ⟨way, stem, h, hne⟩
    rw [h.withExtension, (renameExtension_eq_self_iff hdot).mpr ⟨stem, hne, rfl⟩, ← h.split,
      String.ofList_toList]

theorem exists_renameExtension (name extension : List Char) :
    ∃ stem, renameExtension name extension = stem ++ '.' :: extension ∧ stem <+: name := by
  by_cases h : '.' ∈ name
  · obtain ⟨stem, last, rfl, hlast⟩ := Text.exists_last h
    rw [renameExtension, Text.cutLast_append _ hlast]
    cases stem with
    | nil => exact ⟨_, rfl, List.prefix_rfl⟩
    | cons c stem => exact ⟨_, rfl, List.prefix_append ..⟩
  · rw [renameExtension, Text.cutLast_eq_none h]
    exact ⟨name, rfl, List.prefix_rfl⟩

theorem parts_name (h : '/' ∉ name) : parts name = [name] := by
  refine Text.splitOnP_eq_singleton fun c hc => ?_
  rw [beq_eq_false_iff_ne]
  rintro rfl
  exact h hc

/-- A name behind a slash is one more part. -/
theorem parts_append (directory : List Char) (h : '/' ∉ name) :
    parts (directory ++ '/' :: name) = parts directory ++ [name] := by
  rw [← parts_name h]
  exact Text.splitOnP_append (by decide) directory name

end Path

/-! ## Following a path -/

namespace FileTree

open Mlog.Path

variable {tree : FileTree} {path : String} {way name : List Char}

theorem dropEmpty_concat {parts : List String} {last : String} (h : last ≠ "") :
    dropEmpty (parts ++ [last]) = parts ++ [last] := by
  simp [dropEmpty, h]

theorem length_dropEmpty_le (parts : List String) : (dropEmpty parts).length ≤ parts.length := by
  have h : (parts.reverse.dropWhile String.isEmpty).length ≤ parts.reverse.length :=
    (List.dropWhile_suffix String.isEmpty).length_le
  simpa [dropEmpty] using h

theorem resolve_root (cs : List Char) :
    tree.resolve (String.ofList ('/' :: cs)) =
      if maxPath < (String.ofList ('/' :: cs)).utf8ByteSize then .error .nameTooLong
      else tree.resolveParts ["/"] ((parts cs).map String.ofList) := by
  simp [resolve]

theorem resolve_relative {c : Char} (hc : c ≠ '/') (cs : List Char) :
    tree.resolve (String.ofList (c :: cs)) =
      if maxPath < (String.ofList (c :: cs)).utf8ByteSize then .error .nameTooLong
      else tree.resolveParts [] ((parts (c :: cs)).map String.ofList) := by
  simp [resolve, hc]

/-- A way has a place to start from and directories to go through, whatever name follows it. -/
theorem exists_way (tree : FileTree) (h : way = [] ∨ ∃ directory, way = directory ++ ['/']) :
    ∃ start directories, ∀ name, '/' ∉ name → way ++ name ≠ [] →
      tree.resolve (String.ofList (way ++ name)) =
        if maxPath < (String.ofList (way ++ name)).utf8ByteSize then .error .nameTooLong
        else tree.resolveParts start (directories ++ [String.ofList name]) := by
  rcases h with rfl | ⟨directory, rfl⟩
  · refine ⟨[], [], fun name hslash hne => ?_⟩
    cases name with
    | nil => exact absurd rfl hne
    | cons c name =>
      have hc : c ≠ '/' := fun h => hslash (by simp [h])
      rw [List.nil_append, resolve_relative hc, parts_name hslash]
      rfl
  · simp only [List.append_assoc, List.singleton_append]
    cases directory with
    | nil =>
      refine ⟨["/"], [], fun name hslash _ => ?_⟩
      rw [List.nil_append, resolve_root, parts_name hslash]
      rfl
    | cons c directory =>
      by_cases hc : c = '/'
      · subst hc
        refine ⟨["/"], (parts directory).map String.ofList, fun name hslash _ => ?_⟩
        rw [List.cons_append, resolve_root, parts_append directory hslash, List.map_append]
        rfl
      · refine ⟨[], (parts (c :: directory)).map String.ofList, fun name hslash _ => ?_⟩
        rw [List.cons_append, resolve_relative hc, ← List.cons_append,
          parts_append (c :: directory) hslash, List.map_append]
        rfl

theorem resolveParts_name {start directory : Place} {directories : List String}
    {last name : String}
    (h : tree.resolveParts start (directories ++ [last]) = .ok (.name directory name false)) :
    name = last ∧ directories.foldlM tree.enter start = .ok directory := by
  have hne : last ≠ "" := by
    rintro rfl
    have hdrop : dropEmpty (directories ++ [""]) = dropEmpty directories := by simp [dropEmpty]
    have hlt : (dropEmpty directories).length < (directories ++ [""]).length := by
      have := length_dropEmpty_le directories
      simp
      omega
    unfold resolveParts at h
    simp only [hdrop] at h
    split at h
    · cases h
    · obtain ⟨d, -, h⟩ := Except.bind_eq_ok_iff.mp h
      simp only [hlt] at h
      split at h
      · cases h
      · split at h <;> cases h
  unfold resolveParts at h
  simp only [dropEmpty_concat hne, List.getLast?_concat, List.dropLast_concat] at h
  obtain ⟨d, hd, h⟩ := Except.bind_eq_ok_iff.mp h
  split at h
  · cases h
  · split at h
    · cases h
    · obtain ⟨rfl, rfl, -⟩ := Target.name.inj (Except.ok.inj h)
      exact ⟨rfl, hd⟩

/-- **Another extension leads to the same directory**, and to another name there unless the path
had the extension. -/
theorem resolve_withExtension {extension : String} (hdot : '.' ∉ extension.toList)
    (hslash : '/' ∉ extension.toList) {directory directory' : Place} {name name' : String}
    (h : tree.resolve path = .ok (.name directory name false))
    (h' : tree.resolve (withExtension path extension) = .ok (.name directory' name' false)) :
    directory' = directory ∧ (name' = name ↔ HasExtension path extension) := by
  obtain ⟨way, old, hnamed⟩ := exists_named path
  obtain ⟨start, directories, hway⟩ := exists_way tree hnamed.way
  obtain ⟨stem, hnew, hstem⟩ := exists_renameExtension old extension.toList
  have hsame : withExtension path extension = path ↔ HasExtension path extension :=
    withExtension_eq_self_iff hdot
  have hpath : path = String.ofList (way ++ old) := by rw [← hnamed.split, String.ofList_toList]
  have hne : way ++ old ≠ [] := by
    intro hnil
    rw [hpath, hnil] at h
    cases h
  have hnewslash : '/' ∉ stem ++ '.' :: extension.toList := by
    have hstemslash : '/' ∉ stem := fun hmem => hnamed.name (hstem.subset hmem)
    simp [hstemslash, hslash]
  rw [hnamed.withExtension, hnew] at h' hsame
  rw [hpath, hway old hnamed.name hne] at h
  rw [hway _ hnewslash (by simp)] at h'
  split at h
  · cases h
  · split at h'
    · cases h'
    · obtain ⟨rfl, hdirectory⟩ := resolveParts_name h
      obtain ⟨rfl, hdirectory'⟩ := resolveParts_name h'
      rw [hdirectory] at hdirectory'
      refine ⟨(Except.ok.inj hdirectory').symm, ?_⟩
      rw [← hsame, hpath]
      simp

end FileTree

end Mlog
