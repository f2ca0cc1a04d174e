import Mlog.Proofs.Compile.BaseDialect

/-!
# Labels that nothing jumps to

A unit may be written out without the labels that nothing jumps to.  A label is no instruction: it
stands for the number of instructions before it, and a jump to it goes there.  So a label may be
left out if it is no target, and all that is left must keep its number (`addresses_filter`).

Which labels are targets is found out by resolving every statement that is no label, and which
statements are labels by their text alone.  The two do not get into each other's way, since a label
is never an instruction (`mem_usedLabels_iff`).  `render_jumps` puts this together.
-/
set_option autoImplicit false

namespace Mlog

/-- The labels that a statement jumps to, if it is an instruction. -/
def Statement.jumps (s : Statement) : List String :=
  match Instruction.resolve s.tokens with
  | .ok o => o.targets s.tokens
  | .error _ => []

namespace Compile

/-- Some statement jumps to the label. -/
def IsTarget (statements : List Statement) (label : String) : Prop :=
  ∃ s ∈ statements, label ∈ s.jumps

instance (statements : List Statement) (label : String) : Decidable (IsTarget statements label) :=
  inferInstanceAs (Decidable (∃ s ∈ statements, label ∈ s.jumps))

/-- The statements that are no labels. -/
def instructions (statements : List Statement) : List Statement :=
  statements.filter (·.label?.isNone)

/-- Where a label leads: for each of its definitions in order, the number of instructions before
it. -/
def addresses (label : String) : List Statement → List Nat
  | [] => []
  | s :: rest =>
    match s.label? with
    | none => (addresses label rest).map (· + 1)
    | some name =>
      if name = label then 0 :: addresses label rest else addresses label rest

/-- The instructions, and the labels that some statement jumps to. -/
def needed (statements : List Statement) : List Statement :=
  statements.filter fun s => s.label?.all fun label => IsTarget statements label

section Needed

variable {statements : List Statement} {label : String}

/-- A label is no instruction, so it jumps nowhere. -/
theorem jumps_of_label {s : Statement} (h : s.label? = some label) : s.jumps = [] := by
  unfold Statement.jumps
  split
  · next o ho =>
    have hnone : s.label? = none := labelOf?_of_resolve ho
    rw [hnone] at h
    cases h
  · rfl

theorem usedLabels_eq (statements : List Statement) :
    usedLabels statements = (instructions statements).flatMap Statement.jumps := rfl

/-- The labels that are looked for are the targets of all statements, labels included. -/
theorem mem_usedLabels_iff : label ∈ usedLabels statements ↔ IsTarget statements label := by
  rw [usedLabels_eq, List.mem_flatMap]
  constructor
  · rintro ⟨s, hs, hlabel⟩
    exact ⟨s, (List.mem_filter.mp hs).1, hlabel⟩
  · rintro ⟨s, hs, hlabel⟩
    refine ⟨s, List.mem_filter.mpr ⟨hs, ?_⟩, hlabel⟩
    cases hname : s.label? with
    | none => rfl
    | some name =>
      rw [jumps_of_label hname] at hlabel
      cases hlabel

theorem kept_eq_needed {options : Options} (h : options.removeUnusedJumpLabels = true)
    (statements : List Statement) : kept options statements = needed statements := by
  rw [kept, if_pos h, needed]
  refine List.filter_congr fun s _ => ?_
  congr 1
  funext label
  rw [Bool.eq_iff_iff, List.contains_iff_mem, mem_usedLabels_iff, decide_eq_true_iff]

/-- A filter that keeps the instructions and the definitions of a label keeps its addresses. -/
theorem addresses_filter {keep : Statement → Bool}
    (hinstructions : ∀ s ∈ statements, s.label? = none → keep s = true)
    (hlabel : ∀ s ∈ statements, s.label? = some label → keep s = true) :
    addresses label (statements.filter keep) = addresses label statements := by
  induction statements with
  | nil => rfl
  | cons s rest ih =>
    obtain ⟨hs, hrest⟩ := List.forall_mem_cons.mp hinstructions
    obtain ⟨hs', hrest'⟩ := List.forall_mem_cons.mp hlabel
    have ih := ih hrest hrest'
    cases hname : s.label? with
    | none => rw [List.filter_cons_of_pos (hs hname), addresses, addresses, hname, ih]
    | some name =>
      by_cases heq : name = label
      · subst heq
        rw [List.filter_cons_of_pos (hs' hname), addresses, addresses, hname, ih]
      · -- another label counts for nothing, whether it is kept or not
        have hskip : ∀ more, addresses label (s :: more) = addresses label more := by
          intro more
          rw [addresses, hname]
          exact if_neg heq
        rw [List.filter_cons, hskip]
        split
        · rw [hskip, ih]
        · exact ih

theorem mem_needed_of_none {s : Statement} (hs : s ∈ statements) (h : s.label? = none) :
    s ∈ needed statements := by
  rw [needed, List.mem_filter, h]
  exact ⟨hs, rfl⟩

theorem instructions_needed (statements : List Statement) :
    instructions (needed statements) = instructions statements := by
  rw [instructions, instructions, needed, List.filter_filter]
  refine List.filter_congr fun s _ => ?_
  cases s.label? <;> rfl

/-- A target is one of what is left as well: the statements that jump are all left. -/
theorem isTarget_needed (h : IsTarget statements label) : IsTarget (needed statements) label := by
  obtain ⟨s, hs, hlabel⟩ := h
  refine ⟨s, ?_, hlabel⟩
  cases hname : s.label? with
  | none => exact mem_needed_of_none hs hname
  | some name =>
    rw [jumps_of_label hname] at hlabel
    cases hlabel

/-- The addresses of a target stay, as all its definitions and all instructions do. -/
theorem addresses_needed (h : IsTarget statements label) :
    addresses label (needed statements) = addresses label statements := by
  refine addresses_filter (fun s _ hname => ?_) fun s _ hname => ?_
  · rw [hname, Option.all_none]
  · rw [hname, Option.all_some, decide_eq_true_iff]
    exact h

end Needed

/-- **Leaving out the labels that nothing jumps to changes no jump.**  What is written out is the
instructions, in order, and the labels that some statement jumps to.  A label that is jumped to has
as many definitions as without the option, with the same number of instructions before each, and
no label is written out that nothing written out jumps to. -/
theorem render_jumps {options : Options} (hremove : options.removeUnusedJumpLabels = true)
    (statements : List Statement) :
    render options statements = String.join ((needed statements).map (outputLine options)) ∧
      render { options with removeUnusedJumpLabels := false } statements =
        String.join (statements.map (outputLine options)) ∧
      instructions (needed statements) = instructions statements ∧
      (∀ jump ∈ statements, ∀ label ∈ jump.jumps,
        addresses label (needed statements) = addresses label statements) ∧
      ∀ s ∈ needed statements, ∀ label, s.label? = some label →
        ∃ jump ∈ needed statements, label ∈ jump.jumps := by
  refine ⟨?_, rfl, instructions_needed statements, fun jump hjump label hlabel => ?_,
    fun s hs label hlabel => ?_⟩
  · rw [render, kept_eq_needed hremove]
  · exact addresses_needed ⟨jump, hjump, hlabel⟩
  · apply isTarget_needed
    have htarget := (List.mem_filter.mp hs).2
    rw [hlabel, Option.all_some, decide_eq_true_iff] at htarget
    exact htarget

/-- A label that is defined twice and jumped to, and one that only a line that means nothing
names. -/
theorem render_jumps_twice :
    let options : Options := { removeUnusedJumpLabels := true }
    let statements : List Statement :=
      [["jump", "a", "always", "0", "0"], ["a:"], ["nope", "b"], ["b:"], ["print", "x"],
        ["a:"]].map fun tokens => ⟨tokens, ⟨"main.mlogx", 1, "", "", ""⟩⟩
    (options.removeUnusedJumpLabels = true ∧
      render options statements = "jump a always 0 0\na:\nnope b\nprint x\na:\n") ∧
    addresses "a" statements = [1, 3] ∧ addresses "a" (needed statements) = [1, 3] := by
  intro options statements
  have hrender : render options statements =
      "jump a always 0 0\na:\nnope b\nprint x\na:\n" := by
    decide +kernel
  have hjump : ∃ jump ∈ statements, "a" ∈ jump.jumps := by decide +kernel
  have haddresses : addresses "a" statements = [1, 3] := by decide +kernel
  obtain ⟨jump, hmem, hlabel⟩ := hjump
  obtain ⟨-, -, -, hsame, -⟩ := @render_jumps options rfl statements
  exact ⟨⟨rfl, hrender⟩, haddresses, (hsame jump hmem "a" hlabel).trans haddresses⟩

end Compile

end Mlog
