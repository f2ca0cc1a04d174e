import Mlog.Proofs.Block.Hold
import Mathlib.Algebra.BigOperators.Group.List.Basic
import Mathlib.Data.List.Perm.Basic

/-!
# Copies of statements

Statements that are posted together, as the lines that an instruction expands to, are a group.
Inside loops a group is copied, once for each iteration of all of them together, and a conditional
may drop it.  `iterations` lists the values that the loops of a stack run through, and `spread` the
copies of groups.

The copies leave the stack late and in pieces: a loop keeps its body back, and a brace releases it
to the blocks around.  `Owes stack groups` says that the open blocks keep back what will become
`groups` once they are all ended.  Whatever happens to the stack, what comes out and what is owed
afterwards is what was owed before and the copies of what was posted, and groups are never torn
apart (`Owes.pass`, `Owes.close`).
-/
set_option autoImplicit false

namespace Mlog

/-- The text with variables bound one after the other. -/
def Reference.bindEach (values : List (String × String)) (text : String) : String :=
  values.foldl (fun text nv => Reference.bind nv.1 nv.2 text) text

def Statement.bindEach (values : List (String × String)) (s : Statement) : Statement :=
  values.foldl (fun s nv => s.bind nv.1 nv.2) s

theorem Statement.tokens_bindEach (values : List (String × String)) (s : Statement) :
    (s.bindEach values).tokens = s.tokens.map (Reference.bindEach values) := by
  induction values generalizing s with
  | nil => exact (List.map_id _).symm
  | cons nv values ih =>
    show ((s.bind nv.1 nv.2).bindEach values).tokens = _
    rw [ih, Statement.bind, List.map_map]
    rfl

theorem Statement.bindEach_append (xs ys : List (String × String)) (s : Statement) :
    s.bindEach (xs ++ ys) = (s.bindEach xs).bindEach ys :=
  List.foldl_append

theorem Statement.location_bindEach (values : List (String × String)) (s : Statement) :
    (s.bindEach values).location = s.location := by
  induction values generalizing s with
  | nil => rfl
  | cons nv values ih => exact ih (s.bind nv.1 nv.2)

/-- Statements that are posted together. -/
abbrev Group := List Statement

namespace Group

/-- The copies of groups, once for each choice of values. -/
def spread (choices : List (List (String × String))) (groups : List Group) : List Group :=
  choices.flatMap fun values => groups.map (·.map (Statement.bindEach values))

variable (choices : List (List (String × String)))

@[simp] theorem spread_nil : spread choices [] = [] := by
  simp [spread]

@[simp] theorem spread_single (groups : List Group) : spread [[]] groups = groups := by
  have hid : Statement.bindEach [] = id := rfl
  simp [spread, hid]

theorem spread_perm {xs ys : List Group} (h : xs.Perm ys) :
    (spread choices xs).Perm (spread choices ys) :=
  List.Perm.flatMap_left choices fun _ _ => h.map _

/-- Groups may be copied together or one after the other, but for the order. -/
theorem spread_append (xs ys : List Group) :
    (spread choices (xs ++ ys)).Perm (spread choices xs ++ spread choices ys) := by
  simp only [spread, List.map_append]
  exact (List.flatMap_append_perm ..).symm

/-- Copies of copies are copies for both choices, the later one slower. -/
theorem spread_spread (inner : List (List (String × String))) (groups : List Group) :
    spread choices (spread inner groups) =
      spread (choices.flatMap fun outer => inner.map (· ++ outer)) groups := by
  simp only [spread, List.map_flatMap, List.flatMap_assoc, List.flatMap_map, List.map_map]
  refine List.flatMap_congr fun outer _ => List.flatMap_congr fun values _ => ?_
  refine List.map_congr_left fun group _ => ?_
  simp [Function.comp_def, Statement.bindEach_append]

theorem flatten_spread (groups : List Group) :
    (spread choices groups).flatten =
      choices.flatMap fun values => groups.flatten.map (Statement.bindEach values) := by
  rw [spread, List.flatMap_def, List.flatten_flatten, List.map_map, List.flatMap_def]
  simp only [Function.comp_def, List.map_flatten]

end Group

/-! ## Iterations -/

namespace Block

/-- The values that a block gives to what is inside it, one choice for each copy. -/
def choices : Block → List (List (String × String))
  | scope .. => [[]]
  | loop name elements _ _ => elements.map fun value => [(name, value)]
  | conditional enabled _ => if enabled then [[]] else []

def elements? : Block → Option (List String)
  | loop _ elements _ _ => some elements
  | scope .. | conditional .. => none

/-- Whether a block drops what is inside it. -/
def isDisabled : Block → Bool
  | conditional enabled _ => !enabled
  | scope .. | loop .. => false

/-- What a block releases when it ends, if it kept the groups back. -/
def releases (b : Block) (groups : List Group) : List Group :=
  match b with
  | loop .. => Group.spread b.choices groups
  | scope .. | conditional .. => []

theorem release_eq {b : Block} {groups : List Group} (h : b.held = groups.flatten) :
    b.release = (b.releases groups).flatten := by
  cases b with
  | scope name openedAt => rfl
  | loop name elements buffer openedAt =>
    obtain rfl : buffer = groups.flatten := h
    rw [releases, Group.flatten_spread, choices, List.flatMap_map]
    rfl
  | conditional enabled openedAt => rfl

end Block

namespace BlockStack

/-- The values of all open loops together, one list for each copy, the innermost loop's first in
the list and the outermost loop's changing slowest. -/
def iterations : BlockStack → List (List (String × String))
  | [] => [[]]
  | b :: outer => (iterations outer).flatMap fun values => b.choices.map (· ++ values)

/-- The copies of groups that are posted inside the open blocks. -/
def spread (stack : BlockStack) (groups : List Group) : List Group :=
  Group.spread (iterations stack) groups

theorem spread_nil (groups : List Group) : spread [] groups = groups :=
  Group.spread_single groups

theorem spread_none (stack : BlockStack) : spread stack [] = [] :=
  Group.spread_nil _

theorem spread_cons (b : Block) (outer : BlockStack) (groups : List Group) :
    spread (b :: outer) groups = spread outer (Group.spread b.choices groups) :=
  (Group.spread_spread ..).symm

/-- The number of iterations is the product of the loops' lengths, unless a conditional drops
everything. -/
theorem length_iterations (stack : BlockStack) :
    (iterations stack).length =
      if stack.any Block.isDisabled then 0
      else ((stack.filterMap Block.elements?).map List.length).prod := by
  -- a block multiplies what is outside it by the number of its choices
  induction stack with
  | nil => rfl
  | cons b outer ih =>
    simp only [iterations, List.length_flatMap, List.length_map]
    rw [List.map_const', List.sum_replicate_nat, ih]
    cases b with
    | scope name openedAt =>
      simp [Block.choices, Block.isDisabled, Block.elements?,
        List.filterMap_cons]
    | loop name elements buffer openedAt =>
      simp [Block.choices, Block.isDisabled, Block.elements?, Nat.mul_comm]
    | conditional enabled openedAt =>
      cases enabled <;>
        simp [Block.choices, Block.isDisabled, Block.elements?, List.filterMap_cons]

/-! ## What is owed -/

/-- The open blocks keep back what becomes these groups once all blocks are ended. -/
inductive Owes : BlockStack → List Group → Prop
  | nil : Owes [] []
  | cons {b : Block} {outer : BlockStack} {kept owed : List Group} (held : b.held = kept.flatten)
      (rest : Owes outer owed) : Owes (b :: outer) (spread outer (b.releases kept) ++ owed)

namespace Owes

variable {stack : BlockStack} {owed : List Group}

theorem eq_nil (h : Owes [] owed) : owed = [] := by
  cases h
  rfl

/-- A block that keeps nothing back owes nothing. -/
theorem enter {b : Block} (hb : b.held = []) (h : Owes stack owed) : Owes (b :: stack) owed := by
  have hnone : b.releases [] = [] := by cases b <;> simp [Block.releases]
  have hcons : Owes (b :: stack) (spread stack (b.releases []) ++ owed) := .cons hb h
  rw [hnone, spread_none] at hcons
  exact hcons

/-- **Posting groups**: what comes out and what is owed then is what was owed and the copies of
the groups. -/
theorem pass (h : Owes stack owed) (groups : List Group) :
    ∃ out owed', Owes (BlockStack.pass stack groups.flatten).1 owed' ∧
      (BlockStack.pass stack groups.flatten).2 = out.flatten ∧
        (out ++ owed').Perm (owed ++ spread stack groups) := by
  induction h generalizing groups with
  | nil =>
    refine ⟨groups, [], .nil, rfl, ?_⟩
    rw [spread_nil, List.append_nil, List.nil_append]
  | @cons b outer kept owed held rest ih =>
    rw [spread_cons]
    cases b with
    | scope name openedAt =>
      -- a scope keeps nothing back and copies nothing, as an enabled conditional
      obtain ⟨out, owed', howes, hout, hperm⟩ := ih groups
      refine ⟨out, owed', howes.enter rfl, hout, ?_⟩
      show (out ++ owed').Perm
        (spread outer [] ++ owed ++ spread outer (Group.spread [[]] groups))
      rw [spread_none, Group.spread_single]
      exact hperm
    | loop name elements buffer openedAt =>
      -- nothing comes out: the groups wait behind those that the loop kept already
      let b' := Block.loop name elements (buffer ++ groups.flatten) openedAt
      have hpass : BlockStack.pass (.loop name elements buffer openedAt :: outer) groups.flatten =
          (b' :: outer, []) := by
        simp [BlockStack.pass, Block.pass, b']
      have hheld : b'.held = (kept ++ groups).flatten := by
        rw [List.flatten_append, ← held]
        rfl
      refine ⟨[], spread outer (b'.releases (kept ++ groups)) ++ owed, ?_, ?_, ?_⟩
      · rw [hpass]
        exact .cons hheld rest
      · rw [hpass]
        rfl
      · -- the copies of what was kept are owed already, those of `groups` are new
        have hsplit := (Group.spread_perm (iterations outer)
          (Group.spread_append b'.choices kept groups)).trans (Group.spread_append _ _ _)
        refine ((hsplit.append_right owed).trans ?_)
        rw [List.append_assoc, List.append_assoc]
        exact List.perm_append_comm.append_left _
    | conditional enabled openedAt =>
      cases enabled with
      | true =>
        obtain ⟨out, owed', howes, hout, hperm⟩ := ih groups
        refine ⟨out, owed', howes.enter rfl, hout, ?_⟩
        show (out ++ owed').Perm
          (spread outer [] ++ owed ++ spread outer (Group.spread [[]] groups))
        rw [spread_none, Group.spread_single]
        exact hperm
      | false =>
        have hpass : BlockStack.pass (.conditional false openedAt :: outer) groups.flatten =
            (.conditional false openedAt :: outer, []) := by
          simp [BlockStack.pass, Block.pass]
        refine ⟨[], owed, ?_, ?_, ?_⟩
        · rw [hpass]
          exact rest.enter rfl
        · rw [hpass]
          rfl
        · show owed.Perm (spread outer [] ++ owed ++ spread outer [])
          rw [spread_none, List.append_nil]
          rfl

/-- **Ending a block** takes nothing away and adds nothing: what comes out and what is owed then is
what was owed. -/
theorem close (h : Owes stack owed) {stack' : BlockStack} {statements : List Statement}
    (hc : BlockStack.close stack = .ok (stack', statements)) :
    ∃ out owed', Owes stack' owed' ∧ statements = out.flatten ∧ (out ++ owed').Perm owed := by
  cases h with
  | nil => cases hc
  | @cons b outer kept owed held rest =>
    -- what the block releases is posted to the blocks around it
    obtain ⟨out, owed', howes, hout, hperm⟩ := rest.pass (b.releases kept)
    have heq : BlockStack.pass outer (b.releases kept).flatten = (stack', statements) := by
      rw [← Block.release_eq held]
      exact Except.ok.inj hc
    rw [heq] at howes hout
    exact ⟨out, owed', howes, hout, hperm.trans List.perm_append_comm⟩

end Owes

end BlockStack

end Mlog
