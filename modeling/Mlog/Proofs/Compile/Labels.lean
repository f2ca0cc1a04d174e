import Mlog.Proofs.Compile.BaseDialect
import Mlog.Proofs.Compile.Nesting
import Mlog.Proofs.Symbols.Record

/-!
# The warnings about labels

A unit warns about a label that is jumped to and not defined, and about one that is defined more
than once.  Labels and jumps are renamed, expanded and copied on the way, and each in a place of its
own; what is recorded in the end is what the output says: the labels of its statements, and the
targets of its jumps (`unit_sites`).  So the warnings about a label can be read off the output
alone (`unit_label_warnings`).
-/
set_option autoImplicit false

namespace Mlog

/-! ## Jumps -/

/-- The label that a base instruction jumps to. -/
def jumpTarget? : List String → Option String
  | mnemonic :: operands => if mnemonic = "jump" then operands.head? else none
  | [] => none

namespace Instruction

/-- Only `jump` and `call` have a target, which is their first operand. -/
theorem target_params : ∀ o ∈ table,
    if o.mnemonic = "jump" ∨ o.mnemonic = "call" then
      o.params.head?.bind Param.ty? = some .jumpAddress ∧
        o.params.any Param.isVariadic = false ∧
          ∀ p ∈ o.params.drop 1, p.ty? ≠ some .jumpAddress
    else ∀ p ∈ o.params, p.ty? ≠ some .jumpAddress := by
  decide +kernel

theorem call_not_base : ∀ o ∈ table, o.mnemonic = "call" → o.isBase = false := by
  decide +kernel

/-- The targets of a line are the operands at the positions of targets. -/
theorem targets_eq (o : Overload) (tokens : List String) :
    o.targets tokens = (o.operands tokens).zipIdx.filterMap fun operand =>
      if (o.paramAt? operand.2).bind Param.ty? == some .jumpAddress then some operand.1
      else none := by
  unfold Overload.targets Overload.bind
  rw [List.filterMap_filterMap]
  congr 1
  funext ⟨token, position⟩
  simp only
  cases o.paramAt? position <;> rfl

/-- Whether the operand at a position is a target. -/
theorem target_iff {o : Overload} (hmem : o ∈ table) (i : Nat) :
    (o.paramAt? i).bind Param.ty? = some .jumpAddress ↔
      i = 0 ∧ (o.mnemonic = "jump" ∨ o.mnemonic = "call") := by
  have hparams := target_params o hmem
  split at hparams
  · next hm =>
    obtain ⟨hfirst, hvariadic, hothers⟩ := hparams
    cases i with
    | zero =>
      obtain ⟨p, hp, hty⟩ := Option.bind_eq_some_iff.mp hfirst
      rw [Overload.paramAt?, ← List.head?_eq_getElem?, hp]
      exact iff_of_true hty ⟨rfl, hm⟩
    | succ i =>
      refine iff_of_false ?_ (by simp)
      intro hty
      obtain ⟨p, hp, hty⟩ := Option.bind_eq_some_iff.mp hty
      unfold Overload.paramAt? at hp
      split at hp
      · next q hq =>
        obtain rfl := Option.some.inj hp
        refine hothers q (List.mem_of_getElem? (i := i) ?_) hty
        rw [List.getElem?_drop, Nat.add_comm, hq]
      · rw [List.find?_eq_none.mpr (by simpa using hvariadic)] at hp
        cases hp
  · next hm =>
    refine iff_of_false ?_ fun h => hm h.2
    intro hty
    obtain ⟨p, hp, hty⟩ := Option.bind_eq_some_iff.mp hty
    exact hparams p (Overload.paramAt?_mem hp) hty

theorem targets_of_mem {o : Overload} {m : String} {ops : List String} (hmem : o ∈ table)
    (hb : o.block = none) :
    o.targets (m :: ops) =
      (if o.mnemonic = "jump" ∨ o.mnemonic = "call" then ops.head? else none).toList := by
  have hops : o.operands (m :: ops) = ops := Overload.operands_eq_tail hb _
  rw [targets_eq, hops]
  simp only [beq_iff_eq, target_iff hmem]
  -- no operand but the first is a target
  have hothers : ∀ others : List String,
      (others.zipIdx 1).filterMap (fun operand =>
        if operand.2 = 0 ∧ (o.mnemonic = "jump" ∨ o.mnemonic = "call") then some operand.1
        else none) = [] := by
    intro others
    rw [List.filterMap_eq_nil_iff]
    intro operand hoperand
    have hpos : operand.2 ≠ 0 := by
      have hle := List.le_snd_of_mem_zipIdx hoperand
      omega
    simp [hpos]
  cases ops with
  | nil => simp
  | cons target others =>
    rw [List.zipIdx_cons, List.filterMap_cons, hothers]
    by_cases hm : o.mnemonic = "jump" ∨ o.mnemonic = "call" <;> simp [hm]

end Instruction

/-- What every member of a list gives is left once. -/
theorem eraseDups_flatMap {α : Type} {xs : List α} {f : α → List String} {x : Option String}
    (hne : xs ≠ []) (h : ∀ a ∈ xs, f a = x.toList) : (xs.flatMap f).eraseDups = x.toList := by
  cases x with
  | none =>
    rw [List.flatMap_eq_nil_iff.mpr h]
    rfl
  | some x =>
    obtain ⟨a, rest, rfl⟩ := List.exists_cons_of_ne_nil hne
    obtain ⟨ha, hrest⟩ := List.forall_mem_cons.mp h
    have hfilter : (rest.flatMap f).filter (fun y => !y == x) = [] := by
      rw [List.filter_eq_nil_iff]
      intro y hy
      obtain ⟨b, hb, hy⟩ := List.mem_flatMap.mp hy
      rw [hrest b hb] at hy
      simp [List.mem_singleton.mp hy]
    rw [List.flatMap_cons, ha, Option.toList_some, List.singleton_append, List.eraseDups_cons,
      hfilter]
    rfl

namespace Compile

/-- **The targets of a statement of the output**: that of a jump, under every overload that takes
it. -/
theorem targets_of_base {s : Statement} (hlabel : s.label? = none) {o : Overload}
    (ho : Instruction.resolve s.tokens = .ok o) (hb : o.isBase = true) :
    s.targets = (jumpTarget? s.tokens).toList := by
  obtain ⟨hmem, hh, -⟩ := Instruction.of_resolve ho
  have hcall : o.mnemonic ≠ "call" := by
    intro hcall
    rw [Instruction.call_not_base o hmem hcall] at hb
    cases hb
  have hmatching := Instruction.matching_ne_nil ho (Overload.isBase_iff.mp hb).2
  obtain ⟨ops, htokens⟩ := List.head?_eq_some_iff.mp hh
  rw [Statement.targets, hlabel]
  rw [htokens] at hmatching ⊢
  apply eraseDups_flatMap hmatching
  -- all overloads that take the line have its mnemonic, and so the same targets
  intro c hc
  obtain ⟨hc, htakes⟩ := List.mem_filter.mp hc
  obtain ⟨hcmem, hcm⟩ := Instruction.mem_overloads_iff.mp hc
  have hblock : c.block = none := by simpa using (Bool.and_eq_true_iff.mp htakes).1
  rw [Instruction.targets_of_mem hcmem hblock, hcm, jumpTarget?]
  simp [hcall]

/-! ## What a unit records -/

/-- The labels and jumps of the symbols are those of the statements. -/
structure Progress.Recorded (p : Progress) : Prop where
  labels : p.symbols.labels = Dict.gather .empty (Symbols.labelSites p.statements)
  jumps : p.symbols.jumps = Dict.gather .empty (Symbols.jumpSites p.statements)

theorem declare_frame (symbols : Symbols) (location : Location) (directive : Directive) :
    (declare symbols location directive).labels = symbols.labels ∧
      (declare symbols location directive).jumps = symbols.jumps := by
  cases directive with
  | function signature => exact Symbols.define_frame symbols
  | _ => exact ⟨rfl, rfl⟩

section Unit

variable {settings : Settings} {filename : String} {p q : Progress} {number : Nat}

theorem recorded_unitLine {source : String} (hp : p.Recorded)
    (h : unitLine settings filename p number source = .ok q) : q.Recorded := by
  unfold unitLine at h
  cases hd : Directive.isDirective source with
  | true =>
    simp only [hd, if_true, directiveLine] at h
    split at h
    · cases h
    · rw [Except.mapError_eq_ok_iff] at h
      obtain ⟨directive, -, h⟩ := Except.bind_eq_ok_iff.mp h
      obtain ⟨header, -, h⟩ := Except.bind_eq_ok_iff.mp h
      obtain rfl := Except.ok.inj h
      obtain ⟨hlabels, hjumps⟩ := declare_frame p.symbols ⟨filename, number⟩ directive
      exact ⟨hlabels.trans hp.labels, hjumps.trans hp.jumps⟩
  | false =>
    have hcode : unitLine settings filename p number source = .ok q := h
    rcases unitLine_cases hcode with ⟨hd', -⟩ | ⟨-, statements, verdicts, -, -, rfl⟩
    · rw [hd] at hd'
      cases hd'
    · obtain ⟨hlabels, hjumps⟩ :=
        Symbols.foldl_add_eq_gather (verdicts.filterMap Verdict.statement?) p.symbols
      rw [hp.labels, ← Dict.gather_append] at hlabels
      rw [hp.jumps, ← Dict.gather_append] at hjumps
      refine ⟨hlabels.trans ?_, hjumps.trans ?_⟩
      · simp only [Symbols.labelSites, Progress.record, List.flatMap_append]
      · simp only [Symbols.jumpSites, Progress.record, List.flatMap_append]

theorem recorded_unitLines {lines : List String} (hp : p.Recorded)
    (h : unitLines settings filename p number lines = .ok q) : q.Recorded := by
  induction lines generalizing p number with
  | nil =>
    obtain rfl : p = q := Except.ok.inj h
    exact hp
  | cons source lines ih =>
    obtain ⟨mid, hmid, h⟩ := Except.bind_eq_ok_iff.mp h
    exact ih (recorded_unitLine hp hmid) h

end Unit

/-- The places of statements that have a name, by that name. -/
theorem valuesIn_flatMap (key : Statement → Option String) (statements : List Statement)
    (name : String) :
    Dict.valuesIn name
        (statements.flatMap fun s => (key s).toList.map fun n => (n, s.location)) =
      (statements.filter (key · == some name)).map Statement.location := by
  induction statements with
  | nil => rfl
  | cons s statements ih =>
    have happend : ∀ xs ys : List (String × Location),
        Dict.valuesIn name (xs ++ ys) = Dict.valuesIn name xs ++ Dict.valuesIn name ys := by
      intro xs ys
      simp [Dict.valuesIn]
    rw [List.flatMap_cons, happend, ih]
    cases hkey : key s with
    | none => simp [Dict.valuesIn, hkey]
    | some n => by_cases hn : n = name <;> simp [Dict.valuesIn, hkey, hn]

section Output

variable {settings : Settings} {filename source : String} {output : Output}

/-- Jumps are found through overloads, and for what is put out that is its first operand. -/
theorem targets_of_output {seed : Symbols} (h : unit settings filename source seed = .ok output) :
    ∀ s ∈ output.statements, s.targets = (jumpTarget? s.tokens).toList := by
  intro s hs
  obtain ⟨hsettled, hadmitted⟩ := settled_invariant.output h s hs
  cases hlabel : s.label? with
  | some label =>
    have htarget : jumpTarget? s.tokens = none := by
      unfold Statement.label? at hlabel
      split at hlabel
      · next token htokens => simp [htokens, jumpTarget?]
      · cases hlabel
    simp [Statement.targets, hlabel, htarget]
  | none =>
    rcases hadmitted with hl | ⟨o, ho⟩
    · rw [hlabel] at hl
      cases hl
    · exact targets_of_base hlabel ho (isBase_of_settled hsettled ho)

/-- The statements of the output that define a label. -/
def Output.defining (output : Output) (label : String) : List Statement :=
  output.statements.filter (·.label? == some label)

/-- The statements of the output that jump to a label. -/
def Output.jumping (output : Output) (label : String) : List Statement :=
  output.statements.filter (jumpTarget? ·.tokens == some label)

/-- **What is recorded for a label** is the places of the statements that define it, and of those
that jump to it. -/
theorem unit_sites (h : unit settings filename source {} = .ok output) (label : String) :
    output.symbols.labels.get? label =
        (if output.defining label = [] then none
          else some ((output.defining label).map Statement.location)) ∧
      output.symbols.jumps.get? label =
        if output.jumping label = [] then none
        else some ((output.jumping label).map Statement.location) := by
  have htargets := targets_of_output h
  obtain ⟨p, hp, -, rfl⟩ := unit_eq_ok_iff.mp h
  have hrecorded : p.Recorded := recorded_unitLines ⟨rfl, rfl⟩ hp
  have hjumps : Symbols.jumpSites p.statements =
      p.statements.flatMap fun s => (jumpTarget? s.tokens).toList.map fun n => (n, s.location) := by
    unfold Symbols.jumpSites
    rw [List.flatMap_def, List.flatMap_def]
    congr 1
    apply List.map_congr_left
    intro s hs
    rw [htargets s hs]
  constructor
  · show p.symbols.labels.get? label = _
    rw [hrecorded.labels, Dict.get?_gather, Symbols.labelSites, valuesIn_flatMap]
    simp [Output.defining, Dict.values]
  · show p.symbols.jumps.get? label = _
    rw [hrecorded.jumps, Dict.get?_gather, hjumps, valuesIn_flatMap]
    simp [Output.jumping, Dict.values]

/-- **The warnings about a label say what the output does with it.**  It is reported as missing,
once and with the places of the jumps, exactly if a statement of the output jumps to it, none
defines it and it is no instruction number.  It is reported as defined more than once, once and with
the places of its definitions, exactly if two or more statements of the output define it. -/
theorem unit_label_warnings (h : unit settings filename source {} = .ok output) (label : String) :
    output.symbols.diagnose <:+ output.diagnostics ∧
    output.symbols.diagnose.filter (Diagnostic.saysMissing label) =
      (if output.jumping label ≠ [] ∧ output.defining label = [] ∧
          Shape.isAsciiDigits label.toList = false then
        [⟨.missingLabel label ((output.jumping label).map Statement.location),
          ((output.jumping label).map Statement.location).head?⟩]
      else []) ∧
    output.symbols.diagnose.filter (Diagnostic.saysDuplicate label) =
      if 2 ≤ (output.defining label).length then
        [⟨.duplicateLabel label ((output.defining label).map Statement.location),
          ((output.defining label).map Statement.location)[1]?⟩]
      else [] := by
  obtain ⟨hlabels, hjumps⟩ := unit_sites h label
  have hsuffix : output.symbols.diagnose <:+ output.diagnostics := by
    obtain ⟨p, -, -, rfl⟩ := unit_eq_ok_iff.mp h
    exact List.suffix_append _ _
  have hdefined : output.symbols.labels.values label =
      (output.defining label).map Statement.location := by
    rw [Dict.values, hlabels]
    split
    · next hnone => rw [hnone]; rfl
    · rfl
  refine ⟨hsuffix, ?_, ?_⟩
  · rw [Symbols.diagnose_filter_missing, Symbols.missingLabels_filter]
    simp only [Dict.contains, Dict.values, hlabels, hjumps]
    by_cases hj : output.jumping label = [] <;> by_cases hd : output.defining label = [] <;>
      cases Shape.isAsciiDigits label.toList <;> simp [hj, hd]
  · rw [Symbols.diagnose_filter_duplicate, Symbols.duplicateLabels_filter, hdefined,
      List.length_map]

/-- A label and a jump in a loop in a scope, and a label that is dropped: the loop's label comes out
twice, and what the loop jumps to is missing. -/
theorem unit_label_warnings_loop :
    ∃ output, unit {} "main.mlogx"
        "namespace n \x7b\n&for i of a 2 \x7b\nl:; jump $i always\n\x7d\n\x7d\n&if 0 \x7b\na:\n\x7d"
          {} = .ok output ∧
      output.statements.map Statement.text =
        ["_n_l:", "jump a always 0 0", "_n_l:", "jump 2 always 0 0"] ∧
      output.symbols.diagnose.filter (Diagnostic.saysMissing "a") =
        [⟨.missingLabel "a" [⟨"main.mlogx", 3⟩], some ⟨"main.mlogx", 3⟩⟩] ∧
      output.symbols.diagnose.filter (Diagnostic.saysDuplicate "_n_l") =
        [⟨.duplicateLabel "_n_l" [⟨"main.mlogx", 3⟩, ⟨"main.mlogx", 3⟩],
          some ⟨"main.mlogx", 3⟩⟩] := by
  have hviews : (unit {} "main.mlogx"
      "namespace n \x7b\n&for i of a 2 \x7b\nl:; jump $i always\n\x7d\n\x7d\n&if 0 \x7b\na:\n\x7d"
        {}).toOption.map (fun output => (output.statements.map Statement.text,
          (output.jumping "a").map Statement.location, output.defining "a",
            (output.defining "_n_l").map Statement.location)) =
      some (["_n_l:", "jump a always 0 0", "_n_l:", "jump 2 always 0 0"], [⟨"main.mlogx", 3⟩], [],
        [⟨"main.mlogx", 3⟩, ⟨"main.mlogx", 3⟩]) := by
    decide +kernel
  cases h : unit {} "main.mlogx"
      "namespace n \x7b\n&for i of a 2 \x7b\nl:; jump $i always\n\x7d\n\x7d\n&if 0 \x7b\na:\n\x7d"
      {} with
  | error e =>
    rw [h] at hviews
    cases hviews
  | ok output =>
    rw [h] at hviews
    simp only [Except.toOption, Option.map_some, Option.some.injEq, Prod.mk.injEq] at hviews
    obtain ⟨htexts, hjumping, hdefining, htwice⟩ := hviews
    obtain ⟨-, hmissing, -⟩ := unit_label_warnings h "a"
    obtain ⟨-, -, hduplicate⟩ := unit_label_warnings h "_n_l"
    have hjump : output.jumping "a" ≠ [] := by
      intro hnil
      rw [hnil] at hjumping
      cases hjumping
    have hlength : 2 ≤ (output.defining "_n_l").length := by
      rw [← List.length_map (f := Statement.location), htwice]
      decide
    rw [if_pos ⟨hjump, hdefining, by decide⟩, hjumping] at hmissing
    rw [if_pos hlength, htwice] at hduplicate
    exact ⟨output, rfl, htexts, hmissing, hduplicate⟩

end Output

end Compile

end Mlog
