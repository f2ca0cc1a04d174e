import Mlog.Proofs.Block.Forest
import Mlog.Proofs.Reference.Collision

/-!
# Nested loops

Loops inside each other give one copy of a statement for each combination of their elements.  Each
loop binds its variable when it ends, so the innermost variable gets its value first and the others
are read off texts that hold values already.  Ideally this makes no difference, and each copy is the
statement with all the variables bound at once.

It does make one: `print $i$j` inside a loop over `j` inside a loop over `i` loses its `$i`.
`run_nest_iff` says for which statements the loops do what they should, whatever their elements:
those whose texts are all separated.
-/
set_option autoImplicit false

namespace Mlog

/-! ## The texts of a statement -/

namespace Statement

/-- All texts of a statement: its tokens, and the line it came from at each stage. -/
def texts (s : Statement) : List String :=
  s.provenance.source :: s.provenance.cleaned :: s.provenance.modified :: s.tokens

/-- The statement with each of its texts replaced. -/
def mapTexts (f : String → String) (s : Statement) : Statement where
  tokens := s.tokens.map f
  provenance :=
    { s.provenance with
      source := f s.provenance.source
      cleaned := f s.provenance.cleaned
      modified := f s.provenance.modified }

/-- The statement with all variables bound at once. -/
def bindAll (values : List (String × String)) (s : Statement) : Statement :=
  s.mapTexts (Reference.bindAll values)

theorem bind_mapTexts (name value : String) (f : String → String) (s : Statement) :
    (s.mapTexts f).bind name value = s.mapTexts fun t => Reference.bind name value (f t) := by
  simp [mapTexts, bind, Function.comp_def]

theorem mapTexts_id (s : Statement) : s.mapTexts (fun t => t) = s := by
  simp [mapTexts]

/-- Two ways to replace texts give the same statement if they agree on its texts. -/
theorem mapTexts_eq_iff {f g : String → String} {s : Statement} :
    s.mapTexts f = s.mapTexts g ↔ ∀ t ∈ s.texts, f t = g t := by
  simp only [mapTexts, texts, List.forall_mem_cons, Statement.mk.injEq, Provenance.mk.injEq,
    List.map_inj_left, true_and]
  constructor
  · rintro ⟨htokens, hsource, hcleaned, hmodified⟩
    exact ⟨hsource, hcleaned, hmodified, htokens⟩
  · rintro ⟨hsource, hcleaned, hmodified, htokens⟩
    exact ⟨htokens, hsource, hcleaned, hmodified⟩

end Statement

/-! ## Loops inside each other -/

/-- A header that opens a loop. -/
structure Loop where
  opening : Opening
  name : String
  elements : List String
  opens : opening.block = .loop name elements [] opening.location

/-- A loop over given elements. -/
def Loop.of (name : String) (elements : List String) (nonempty : elements ≠ [])
    (location : Location) : Loop where
  opening := .loop name elements nonempty location
  name := name
  elements := elements
  opens := rfl

/-- A statement inside loops, the outermost first. -/
def Forest.nest : List Loop → Statement → Forest
  | [], s => .batch [s] .nil
  | l :: loops, s => .block l.opening (nest loops s) .nil

/-- The combinations of elements, the outermost loop's slowest: each a value for each variable. -/
def combinations : List Loop → List (List (String × String))
  | [] => [[]]
  | l :: loops => l.elements.flatMap fun e => (combinations loops).map ((l.name, e) :: ·)

/-- What nested loops stand for: for each combination, the values put in one after the other. -/
theorem eval_nest (loops : List Loop) (s : Statement) :
    (Forest.nest loops s).eval =
      (combinations loops).map fun c => s.mapTexts (Reference.replay c) := by
  induction loops with
  | nil =>
    have hreplay : Reference.replay [] = fun t => t := rfl
    simp [Forest.nest, Forest.eval, combinations, hreplay, Statement.mapTexts_id]
  | cons l loops ih =>
    rw [Forest.nest, Forest.eval, Forest.eval, List.append_nil, ih, l.opens, Block.effect,
      combinations, List.map_flatMap]
    congr 1
    funext e
    rw [List.map_map, List.map_map]
    refine List.map_congr_left fun c _ => ?_
    rw [Function.comp_apply, Statement.bind_mapTexts]
    rfl

theorem of_mem_combinations {loops : List Loop}
    (hplain : ∀ l ∈ loops, ∀ e ∈ l.elements, '$' ∉ e.toList) :
    ∀ c ∈ combinations loops,
      c.map Prod.fst = loops.map Loop.name ∧ ∀ nv ∈ c, '$' ∉ nv.2.toList := by
  induction loops with
  | nil =>
    intro c hc
    obtain rfl : c = [] := by simpa [combinations] using hc
    exact ⟨rfl, by simp⟩
  | cons l loops ih =>
    rw [List.forall_mem_cons] at hplain
    intro c hc
    obtain ⟨e, he, hc⟩ := List.mem_flatMap.mp hc
    obtain ⟨c', hc', rfl⟩ := List.mem_map.mp hc
    obtain ⟨hnames, hvalues⟩ := ih hplain.2 c' hc'
    exact ⟨by simp [hnames], List.forall_mem_cons.mpr ⟨hplain.1 e he, hvalues⟩⟩

/-- Loops over one element each, so that there is one combination. -/
def Loop.ofValues (values : List (String × String)) : List Loop :=
  values.map fun nv => Loop.of nv.1 [nv.2] (by simp) ⟨"", 0⟩

theorem combinations_ofValues (values : List (String × String)) :
    combinations (Loop.ofValues values) = [values] := by
  induction values with
  | nil => rfl
  | cons nv values ih =>
    rw [Loop.ofValues, List.map_cons, combinations]
    show List.flatMap _ [nv.2] = _
    rw [← Loop.ofValues, ih]
    rfl

namespace BlockStack

/-- **Nested loops bind their variables at once exactly if the references are separated.**  For
loops over distinct variables and elements without `$`, what comes out is the statement with all
variables bound at once, for each combination of elements in turn, if every text of the statement is
separated; and if one is not, some elements show it. -/
theorem run_nest_iff (names : List String) (hnames : names.Nodup) (s : Statement) :
    (∀ loops : List Loop, loops.map Loop.name = names →
      (∀ l ∈ loops, ∀ e ∈ l.elements, '$' ∉ e.toList) →
        run [] (Forest.nest loops s).ops =
          .ok ([], (combinations loops).map fun c => s.bindAll c)) ↔
      ∀ text ∈ s.texts, Reference.separated names text.toList = true := by
  constructor
  · intro h text htext
    -- loops over one element each ask for one combination
    refine (Reference.separated_iff hnames).mpr fun values hvalues hplain => ?_
    have hloops := h (Loop.ofValues values) (by simp [Loop.ofValues, Loop.of, ← hvalues])
      (fun l hl e he => ?_)
    · rw [run_ops, eval_nest, combinations_ofValues] at hloops
      have hcopy : s.mapTexts (Reference.replay values) = s.bindAll values := by
        simpa [pass] using hloops
      exact Statement.mapTexts_eq_iff.mp hcopy text htext
    · obtain ⟨nv, hnv, rfl⟩ := List.mem_map.mp hl
      obtain rfl : e = nv.2 := by simpa [Loop.of] using he
      exact hplain nv hnv
  · rintro h loops rfl hplain
    rw [run_ops, eval_nest]
    have hcopies : ∀ c ∈ combinations loops, s.mapTexts (Reference.replay c) = s.bindAll c := by
      intro c hc
      obtain ⟨hfst, hvalues⟩ := of_mem_combinations hplain c hc
      refine Statement.mapTexts_eq_iff.mpr fun text htext => ?_
      exact (Reference.separated_iff hnames).mp (h text htext) c hfst hvalues
    rw [List.map_congr_left hcopies]
    rfl

/-- A delimited reference is not lengthened by the value behind it. -/
theorem run_nest_delimited :
    run [] (Forest.nest
        [.of "i" ["0", "1"] (by simp) ⟨"main.mlogx", 1⟩,
          .of "j" ["a", "b"] (by simp) ⟨"main.mlogx", 1⟩]
        ⟨["print", "$(i)$j"], ⟨"main.mlogx", 1, "print $(i)$j", "print $(i)$j",
          "print $(i)$j"⟩⟩).ops =
      .ok ([], (combinations
        [.of "i" ["0", "1"] (by simp) ⟨"main.mlogx", 1⟩,
          .of "j" ["a", "b"] (by simp) ⟨"main.mlogx", 1⟩]).map fun c =>
            Statement.bindAll c ⟨["print", "$(i)$j"], ⟨"main.mlogx", 1, "print $(i)$j",
              "print $(i)$j", "print $(i)$j"⟩⟩) :=
  (run_nest_iff ["i", "j"] (by decide) _).mpr (by decide +kernel) _ rfl (by decide +kernel)

/-- A bare one is, and then it is no reference to its variable any more. -/
theorem run_nest_bare :
    (run [] (Forest.nest
        [.of "i" ["0", "1"] (by simp) ⟨"main.mlogx", 1⟩,
          .of "j" ["a", "b"] (by simp) ⟨"main.mlogx", 1⟩]
        ⟨["print", "$i$j"], ⟨"main.mlogx", 1, "print $i$j", "print $i$j",
          "print $i$j"⟩⟩).ops).toOption.map (fun r => r.2.map Statement.text) =
      some ["print $ia", "print $ib", "print $ia", "print $ib"] ∧
    ((combinations
        [.of "i" ["0", "1"] (by simp) ⟨"main.mlogx", 1⟩,
          .of "j" ["a", "b"] (by simp) ⟨"main.mlogx", 1⟩]).map fun c =>
            (Statement.bindAll c ⟨["print", "$i$j"], ⟨"main.mlogx", 1, "print $i$j",
              "print $i$j", "print $i$j"⟩⟩).text) =
      ["print 0a", "print 0b", "print 1a", "print 1b"] := by
  decide +kernel

end BlockStack

end Mlog
