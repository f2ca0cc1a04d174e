import Mlog.Param.Signature
import Mlog.Proofs.Instruction.Fit

/-!
# Operands and their parameters

An overload checks the number of its operands by counting its parameters, and gives operands to
parameters by position alone: the `i`-th operand belongs to the `i`-th parameter, and what is left
over to the variadic one.  That the two agree is up to the shape of the signature.

Within the bounds every operand has a parameter (`getElem?_bind`).  A required parameter has an
operand if all parameters before it are required too (`lt_least`), and the shape makes sure of that
for all but a variadic one (`required_before`): a variadic parameter may be required and stand
behind an optional one.  The optional one is then served first, and the variadic one may be left
with nothing (`bind_rest_unserved`).
-/
set_option autoImplicit false

namespace Mlog

/-! ## Shapes -/

/-- What comes before a required parameter is required, unless the parameter is variadic. -/
theorem Signature.required_before {seenOptional seenVariadic : Bool} {params : List Param}
    (h : checkShape seenOptional seenVariadic params = .ok ()) {i : Nat} {p : Param}
    (hp : params[i]? = some p) (hrequired : p.optional = false) (hvariadic : p.isVariadic = false) :
    seenOptional = false ∧ ∀ q ∈ params.take i, q.optional = false := by
  induction params generalizing seenOptional seenVariadic i with
  | nil => simp at hp
  | cons q params ih =>
    rw [checkShape] at h
    split at h
    · cases h
    split at h
    · cases h
    split at h
    · cases h
    next hshape =>
      cases i with
      | zero =>
        obtain rfl : q = p := Option.some.inj hp
        simpa [hrequired, hvariadic] using hshape
      | succ i =>
        obtain ⟨hseen, hbefore⟩ := ih h hp
        obtain ⟨hseen, hq⟩ := Bool.or_eq_false_iff.mp hseen
        exact ⟨hseen, List.forall_mem_cons.mpr ⟨hq, hbefore⟩⟩

theorem Signature.checkShape_of_parse {text : String} {params : List Param}
    (h : parse text = .ok params) : checkShape false false params = .ok () := by
  unfold parse at h
  cases hread : (Text.words text).mapM Param.parse with
  | error e =>
    rw [hread] at h
    cases h
  | ok read =>
    rw [hread] at h
    cases hshape : checkShape false false read with
    | error e =>
      simp only [bind, Except.bind, hshape] at h
      cases h
    | ok _ =>
      simp only [bind, Except.bind, hshape] at h
      rw [← Except.ok.inj h]
      exact hshape

namespace Overload

variable {o : Overload} {tokens : List String} {i n : Nat} {p : Param}

/-- The position of the parameter that the operand at a position belongs to. -/
def position? (o : Overload) (j : Nat) : Option Nat :=
  if j < o.params.length then some j else o.params.findIdx? Param.isVariadic

theorem paramAt?_eq (o : Overload) (j : Nat) :
    o.paramAt? j = (o.position? j).bind fun i => o.params[i]? := by
  unfold paramAt? position?
  by_cases hj : j < o.params.length
  · rw [if_pos hj, List.getElem?_eq_getElem hj, Option.bind_some, List.getElem?_eq_getElem hj]
  · rw [if_neg hj, List.getElem?_eq_none_iff.mpr (Nat.le_of_not_lt hj)]
    exact List.find?_eq_bind_findIdx?_getElem?

/-- A parameter has an operand exactly if the operands reach its position. -/
theorem exists_position?_iff (hp : o.params[i]? = some p) :
    (∃ j < n, o.position? j = some i) ↔ i < n := by
  have hi : i < o.params.length := (List.getElem?_eq_some_iff.mp hp).1
  constructor
  · rintro ⟨j, hj, hposition⟩
    unfold position? at hposition
    split at hposition
    · obtain rfl := Option.some.inj hposition
      exact hj
    · omega
  · intro hin
    exact ⟨i, hin, if_pos hi⟩

/-- A required parameter behind required ones counts among them. -/
theorem lt_least (hp : o.params[i]? = some p) (hrequired : p.optional = false)
    (hbefore : ∀ q ∈ o.params.take i, q.optional = false) : i < o.least := by
  have hi : i < o.params.length := (List.getElem?_eq_some_iff.mp hp).1
  have htake : o.params.take (i + 1) = o.params.take i ++ [p] := by
    rw [List.take_add_one, hp, Option.toList_some]
  have hall : (o.params.take (i + 1)).filter (!·.optional) = o.params.take (i + 1) := by
    rw [List.filter_eq_self, htake, List.forall_mem_append, List.forall_mem_singleton]
    exact ⟨fun q hq => by rw [hbefore q hq]; rfl, by rw [hrequired]; rfl⟩
  calc i < (o.params.take (i + 1)).length := by rw [List.length_take]; omega
    _ = ((o.params.take (i + 1)).filter (!·.optional)).length := by rw [hall]
    _ ≤ o.least := ((List.take_sublist _ _).filter _).length_le

/-- A list of which every member gives something keeps its positions. -/
theorem getElem?_filterMap {α β : Type} {f : α → Option β} {xs : List α}
    (h : ∀ x ∈ xs, ∃ y, f x = some y) (j : Nat) : (xs.filterMap f)[j]? = xs[j]?.bind f := by
  induction xs generalizing j with
  | nil => rfl
  | cons x xs ih =>
    obtain ⟨⟨y, hy⟩, hxs⟩ := List.forall_mem_cons.mp h
    rw [List.filterMap_cons_some hy]
    cases j with
    | zero => exact hy.symm
    | succ j => exact ih hxs j

/-- Within the bounds on their number, operands keep their positions when they get their
parameters. -/
theorem getElem?_bind (hcount : o.takesCount (o.operands tokens).length = true) (j : Nat) :
    (o.bind tokens)[j]? =
      (o.operands tokens)[j]?.bind fun token => (o.paramAt? j).map fun p => (token, p) := by
  unfold bind
  rw [getElem?_filterMap, List.getElem?_zipIdx]
  · cases (o.operands tokens)[j]? with
    | none => rfl
    | some token => simp
  · rintro ⟨token, k⟩ hk
    have hlt : k < (o.operands tokens).length :=
      (List.getElem?_eq_some_iff.mp (List.mem_zipIdx_iff_getElem?.mp hk)).1
    obtain ⟨p, hp⟩ := exists_paramAt?_of_takesCount hcount hlt
    exact ⟨(token, p), by simp [hp]⟩

theorem map_fst_bind (hcount : o.takesCount (o.operands tokens).length = true) :
    (o.bind tokens).map Prod.fst = o.operands tokens := by
  apply List.ext_getElem?
  intro j
  rw [List.getElem?_map, getElem?_bind hcount]
  cases htoken : (o.operands tokens)[j]? with
  | none => rfl
  | some token =>
    have hlt := (List.getElem?_eq_some_iff.mp htoken).1
    obtain ⟨p, hp⟩ := exists_paramAt?_of_takesCount hcount hlt
    rw [Option.bind_some, hp]
    rfl

/-- **The bounds on operands agree with what binds them**, but for a variadic parameter behind an
optional one.  Take parameters that were read from a signature, and as many operands as the bounds
allow.  Every operand is bound to one parameter.  A parameter gets an operand exactly if the
operands reach its position, and so they do for every required parameter, unless it is variadic and
stands behind an optional one. -/
theorem bind_serves {text : String} (h : Signature.parse text = .ok o.params)
    (hcount : o.takesCount (o.operands tokens).length = true) :
    ((o.bind tokens).map Prod.fst = o.operands tokens ∧
      ∀ j token, (o.operands tokens)[j]? = some token →
        ∃ i p, o.position? j = some i ∧ o.params[i]? = some p ∧
          (o.bind tokens)[j]? = some (token, p)) ∧
    (∀ i p, o.params[i]? = some p →
      ((∃ j < (o.operands tokens).length, o.position? j = some i) ↔
        i < (o.operands tokens).length)) ∧
    ∀ i p, o.params[i]? = some p → p.optional = false →
      (p.isVariadic = true → ∀ q ∈ o.params.take i, q.optional = false) →
        ∃ j < (o.operands tokens).length, o.position? j = some i := by
  refine ⟨⟨map_fst_bind hcount, fun j token htoken => ?_⟩, fun i p hp => exists_position?_iff hp,
    fun i p hp hrequired hvariadic => (exists_position?_iff hp).mpr ?_⟩
  · have hlt := (List.getElem?_eq_some_iff.mp htoken).1
    obtain ⟨p, hp⟩ := exists_paramAt?_of_takesCount hcount hlt
    obtain ⟨i, hi, hip⟩ := Option.bind_eq_some_iff.mp (paramAt?_eq o j ▸ hp)
    refine ⟨i, p, hi, hip, ?_⟩
    rw [getElem?_bind hcount, htoken, Option.bind_some, hp, Option.map_some]
  · have hbefore : ∀ q ∈ o.params.take i, q.optional = false := by
      cases hv : p.isVariadic with
      | true => exact hvariadic hv
      | false =>
        exact (Signature.required_before (Signature.checkShape_of_parse h) hp hrequired hv).2
    calc i < o.least := lt_least hp hrequired hbefore
      _ ≤ (o.operands tokens).length := (le_of_takesCount hcount).1

/-- An optional parameter behind the variadic one is served before it gets a second operand. -/
theorem bind_serves_leftover :
    let o : Overload :=
      { mnemonic := "f", params := [.out "a" .number, .rest "b" .any, .opt "c" .any],
        description := "" }
    let tokens := ["f", "x", "1", "2", "3"]
    (Signature.parse "a:*number ...b:any c:any?" = .ok o.params ∧
      o.takesCount (o.operands tokens).length = true) ∧
    (o.bind tokens).map (fun pair => (pair.1, pair.2.name)) =
      [("x", "a"), ("1", "b"), ("2", "c"), ("3", "b")] ∧
    ∃ j < 4, o.position? j = some 1 := by
  intro o tokens
  have hparse : Signature.parse "a:*number ...b:any c:any?" = .ok o.params := by rfl
  have hcount : o.takesCount (o.operands tokens).length = true := by decide
  have hbind : (o.bind tokens).map (fun pair => (pair.1, pair.2.name)) =
      [("x", "a"), ("1", "b"), ("2", "c"), ("3", "b")] := by
    decide
  have hserved := (bind_serves hparse hcount).2.2 1 (.rest "b" .any) rfl rfl (by decide)
  exact ⟨⟨hparse, hcount⟩, hbind, hserved⟩

/-- A variadic parameter that is required and gets nothing: two operands are as many as required
parameters, and the optional one takes the second. -/
theorem bind_rest_unserved :
    let o : Overload :=
      { mnemonic := "f", params := [.val "a" .number, .opt "b" .number, .rest "rest" .any],
        description := "" }
    let tokens := ["f", "1", "2"]
    Signature.parse "a:number b:number? ...rest:any" = .ok o.params ∧
      o.takesCount (o.operands tokens).length = true ∧
      o.bind tokens = [("1", .val "a" .number), ("2", .opt "b" .number)] ∧
      (Param.rest "rest" .any).optional = false ∧
      ¬ ∃ token, (token, Param.rest "rest" .any) ∈ o.bind tokens := by
  intro o tokens
  have hbind : o.bind tokens = [("1", .val "a" .number), ("2", .opt "b" .number)] := by decide
  refine ⟨by rfl, by decide, hbind, rfl, ?_⟩
  rintro ⟨token, htoken⟩
  rw [hbind] at htoken
  simp [Param.rest, Param.val, Param.opt] at htoken

end Overload

end Mlog
