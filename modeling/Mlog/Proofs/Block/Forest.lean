import Mlog.Proofs.Block.Hold

/-!
# The meaning of nested blocks

The open blocks are a stack, and statements leave them late: a loop keeps what it is given, and
releases it at its closing brace to the blocks that are still open.  What comes out in the end is
nevertheless what the nesting says.  A `Forest` is such a nesting, `Forest.eval` its meaning, read
off the tree without a stack, and `Forest.ops` the uses of the stack that it is written as.

`run_ops` compares the two inside any open blocks: running a forest there is to pass its meaning
through them.  A block is the one interesting case.  Its body is passed through the block and the
blocks around it, and its brace releases the rest; together that is what the block makes of its
body, passed through the blocks around it (`close_pass`).
-/
set_option autoImplicit false

namespace Mlog

/-! ## Uses of the stack -/

namespace BlockStack

/-- One use of the open blocks. -/
inductive Op where
  /-- opens the block that a header describes -/
  | enter (kind : BlockKind) (header : List String) (location : Location)
  /-- lets statements pass -/
  | post (statements : List Statement)
  /-- ends the innermost block -/
  | leave
  deriving DecidableEq, Repr

/-- Uses the stack once: the blocks afterwards, and what comes out. -/
def step (stack : BlockStack) : Op → Except Fault (BlockStack × List Statement)
  | .enter kind header location =>
    (Block.ofHeader kind header location).map fun (block, _) => (block :: stack, [])
  | .post statements => .ok (stack.pass statements)
  | .leave => stack.close

/-- Uses the stack again and again: the blocks in the end, and all that came out, in order. -/
def run : BlockStack → List Op → Except Fault (BlockStack × List Statement)
  | stack, [] => .ok (stack, [])
  | stack, op :: ops => do
    let (stack, out) ← step stack op
    let (stack, rest) ← run stack ops
    return (stack, out ++ rest)

theorem run_cons_of_step {stack stack' : BlockStack} {op : Op} {out : List Statement}
    (h : step stack op = .ok (stack', out)) (ops : List Op) :
    run stack (op :: ops) = (run stack' ops).map fun r => (r.1, out ++ r.2) := by
  rw [run, h]
  show (run stack' ops >>= _) = _
  cases run stack' ops <;> rfl

/-- What comes out of two runs comes out of both as one. -/
theorem run_append_of_run {stack stack' : BlockStack} {xs : List Op} {out : List Statement}
    (h : run stack xs = .ok (stack', out)) (ys : List Op) :
    run stack (xs ++ ys) = (run stack' ys).map fun r => (r.1, out ++ r.2) := by
  induction xs generalizing stack out with
  | nil =>
    obtain ⟨rfl, rfl⟩ : stack = stack' ∧ [] = out := by simpa [run] using h
    rw [List.nil_append]
    cases run stack ys <;> rfl
  | cons op xs ih =>
    cases hs : step stack op with
    | error fault =>
      rw [run, hs] at h
      exact absurd h (by simp [bind, Except.bind])
    | ok r =>
      obtain ⟨mid, first⟩ := r
      rw [run_cons_of_step hs] at h
      cases hr : run mid xs with
      | error fault =>
        rw [hr] at h
        exact absurd h (by simp [Except.map])
      | ok q =>
        rw [hr] at h
        obtain ⟨rfl, rfl⟩ : q.1 = stack' ∧ first ++ q.2 = out := by simpa [Except.map] using h
        rw [List.cons_append, run_cons_of_step hs, ih hr]
        cases run q.1 ys with
        | error fault => rfl
        | ok p => simp [Except.map]

end BlockStack

/-! ## Blocks and their meaning -/

namespace Block

/-- What a block makes of its body. -/
def effect (b : Block) (body : List Statement) : List Statement :=
  match b with
  | scope .. => body
  | loop name elements _ _ => elements.flatMap fun value => body.map (Statement.bind name value)
  | conditional enabled _ => if enabled then body else []

/-- What a block lets through of its body, and what it releases afterwards, is its effect, if it
kept nothing back before.  One of the two is empty. -/
theorem pass_append_release {b : Block} (h : b.held = []) (body : List Statement) :
    (b.pass body).2 ++ (b.pass body).1.release = b.effect body := by
  cases b with
  | scope name openedAt => simp [pass, release, effect]
  | loop name elements buffer openedAt =>
    obtain rfl : buffer = [] := h
    simp [pass, release, effect]
  | conditional enabled openedAt => simp [pass, release, effect]

end Block

/-- A header that opens a block. -/
structure Opening where
  kind : BlockKind
  header : List String
  location : Location
  block : Block
  warnings : List Diagnostic
  opens : Block.ofHeader kind header location = .ok (block, warnings)

namespace Opening

/-- The header of a scope. -/
def scope (name : String) (location : Location) : Opening where
  kind := .scope
  header := ["namespace", name]
  location := location
  block := .scope name location
  warnings := []
  opens := rfl

/-- The header of a loop over given elements. -/
def loop (name : String) (elements : List String) (nonempty : elements ≠ [])
    (location : Location) : Opening where
  kind := .loop
  header := "&for" :: name :: "of" :: elements
  location := location
  block := .loop name elements [] location
  warnings := []
  opens := by
    have hne : elements.isEmpty = false := by simpa using nonempty
    simp [Block.ofHeader, Block.loopParts, hne, bind, Except.bind, pure, Except.pure]

/-- The header of a conditional that keeps or drops its body. -/
def conditional (enabled : Bool) (location : Location) : Opening where
  kind := .conditional
  header := ["&if", if enabled then "true" else "false"]
  location := location
  block := .conditional enabled location
  warnings := []
  opens := by cases enabled <;> rfl

end Opening

/-! ## Forests -/

/-- Statements and blocks, nested to any depth. -/
inductive Forest where
  | nil
  /-- statements that are posted together -/
  | batch (statements : List Statement) (rest : Forest)
  | block (opening : Opening) (body rest : Forest)

namespace Forest

/-- The statements that a forest stands for. -/
def eval : Forest → List Statement
  | nil => []
  | batch statements rest => statements ++ rest.eval
  | block opening body rest => opening.block.effect body.eval ++ rest.eval

/-- The uses of the stack that a forest is written as. -/
def ops : Forest → List BlockStack.Op
  | nil => []
  | batch statements rest => .post statements :: rest.ops
  | block opening body rest =>
    .enter opening.kind opening.header opening.location :: (body.ops ++ .leave :: rest.ops)

end Forest

namespace BlockStack

theorem step_enter (stack : BlockStack) (opening : Opening) :
    step stack (.enter opening.kind opening.header opening.location) =
      .ok (opening.block :: stack, []) := by
  simp [step, opening.opens, Except.map]

/-- A block is ended where its body has passed: all that came out is its effect, passed through the
blocks around it. -/
theorem close_pass {b : Block} (h : b.held = []) (outer : BlockStack)
    (body : List Statement) :
    close (pass (b :: outer) body).1 =
        .ok (pass (pass outer (b.pass body).2).1 (b.pass body).1.release) ∧
      pass outer (b.effect body) =
        ((pass (pass outer (b.pass body).2).1 (b.pass body).1.release).1,
          (pass (b :: outer) body).2 ++
            (pass (pass outer (b.pass body).2).1 (b.pass body).1.release).2) := by
  refine ⟨rfl, ?_⟩
  rw [← Block.pass_append_release h, pass_append]
  rfl

/-- **Running a forest is to pass its meaning** through the blocks that are open around it. -/
theorem run_ops (forest : Forest) (stack : BlockStack) :
    run stack forest.ops = .ok (stack.pass forest.eval) := by
  induction forest generalizing stack with
  | nil => simp [Forest.ops, Forest.eval, run]
  | batch statements rest ih =>
    have hpost : step stack (.post statements) = .ok (stack.pass statements) := rfl
    rw [Forest.ops, Forest.eval, run_cons_of_step hpost, ih, pass_append]
    rfl
  | block opening body rest ihBody ihRest =>
    have hheld := Block.held_of_ofHeader opening.opens
    obtain ⟨hclose, heffect⟩ := close_pass hheld stack body.eval
    -- the body runs inside the block, and the brace gives out what the block kept of it
    have hleave : step (pass (opening.block :: stack) body.eval).1 .leave = _ := hclose
    rw [Forest.ops, Forest.eval, run_cons_of_step (step_enter stack opening),
      run_append_of_run (ihBody _), run_cons_of_step hleave, ihRest, pass_append, heffect]
    simp [Except.map]

/-- **The stack of blocks has the meaning of their nesting**: whatever forest is written to an
empty stack, what comes out of all its uses together is the meaning of the forest, and the stack is
empty again. -/
theorem run_forest (forest : Forest) : run [] forest.ops = .ok ([], forest.eval) := by
  rw [run_ops]
  rfl

/-- A loop in a conditional that drops its body is dropped with all its copies, and a scope behind
it is not. -/
example (s t : Statement) (l : Location) :
    run [] (Forest.block (.conditional false l)
      (.block (.loop "i" ["0", "1"] (by simp) l) (.batch [s] .nil) .nil)
      (.block (.scope "a" l) (.batch [t] .nil) .nil)).ops = .ok ([], [t]) := by
  rfl

end BlockStack

end Mlog
