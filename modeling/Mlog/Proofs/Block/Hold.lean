import Mlog.Block

/-!
# What open blocks keep back

Only loops keep statements back, and only until they end.  A property of statements that binding a
variable preserves is kept up by everything that can happen to the open blocks: if it holds of the
statements that wait in them and of those that come in, it holds of those that wait afterwards and
of those that come out.
-/
set_option autoImplicit false

namespace Mlog

/-- The statements that a block keeps back. -/
def Block.held : Block → List Statement
  | loop _ _ buffer _ => buffer
  | scope .. | conditional .. => []

/-- A header opens a block that keeps nothing back. -/
theorem Block.held_of_ofHeader {kind : BlockKind} {header : List String} {location : Location}
    {block : Block} {warnings : List Diagnostic}
    (h : ofHeader kind header location = .ok (block, warnings)) : block.held = [] := by
  cases kind with
  | scope =>
    simp only [ofHeader] at h
    split at h
    · obtain ⟨rfl, -⟩ := Prod.mk.inj (Except.ok.inj h)
      rfl
    · exact absurd h (by simp)
  | loop =>
    cases hp : loopParts header with
    | error fault => simp [ofHeader, hp, bind, Except.bind] at h
    | ok parts =>
      simp only [ofHeader, hp, bind, Except.bind, pure, Except.pure] at h
      obtain ⟨rfl, -⟩ := Prod.mk.inj (Except.ok.inj h)
      rfl
  | conditional =>
    simp only [ofHeader] at h
    split at h
    · obtain ⟨rfl, -⟩ := Prod.mk.inj (Except.ok.inj h)
      rfl
    · obtain ⟨rfl, -⟩ := Prod.mk.inj (Except.ok.inj h)
      rfl
  | close => exact absurd h (by simp [ofHeader])

/-- A property holds of every statement that waits in the open blocks. -/
def BlockStack.Holds (P : Statement → Prop) (stack : BlockStack) : Prop :=
  ∀ b ∈ stack, ∀ s ∈ b.held, P s

section Blocks

variable {P : Statement → Prop}

theorem Block.pass_holds {b : Block} {statements : List Statement} (hb : ∀ s ∈ b.held, P s)
    (hs : ∀ s ∈ statements, P s) :
    (∀ s ∈ (b.pass statements).1.held, P s) ∧ ∀ s ∈ (b.pass statements).2, P s := by
  cases b with
  | scope name openedAt => exact ⟨hb, hs⟩
  | loop name elements buffer openedAt =>
    refine ⟨fun s h => ?_, fun s h => absurd h (by simp [Block.pass])⟩
    rcases List.mem_append.mp h with h | h
    · exact hb s h
    · exact hs s h
  | conditional enabled openedAt =>
    refine ⟨hb, ?_⟩
    cases enabled with
    | true => exact hs
    | false => exact fun s h => absurd h (by simp [Block.pass])

theorem Block.release_holds {b : Block} (hbind : ∀ s name value, P s → P (s.bind name value))
    (hb : ∀ s ∈ b.held, P s) : ∀ s ∈ b.release, P s := by
  cases b with
  | scope name openedAt => exact fun s h => absurd h (by simp [Block.release])
  | loop name elements buffer openedAt =>
    intro s h
    obtain ⟨value, -, h⟩ := List.mem_flatMap.mp h
    obtain ⟨s', hs', rfl⟩ := List.mem_map.mp h
    exact hbind s' name value (hb s' hs')
  | conditional enabled openedAt => exact fun s h => absurd h (by simp [Block.release])

namespace BlockStack

theorem holds_nil : Holds P [] := fun b hb => absurd hb (by simp)

theorem holds_cons {b : Block} {outer : BlockStack} :
    Holds P (b :: outer) ↔ (∀ s ∈ b.held, P s) ∧ Holds P outer := by
  simp [Holds]

theorem pass_holds {stack : BlockStack} {statements : List Statement} (h : stack.Holds P)
    (hs : ∀ s ∈ statements, P s) :
    (stack.pass statements).1.Holds P ∧ ∀ s ∈ (stack.pass statements).2, P s := by
  induction stack generalizing statements with
  | nil => exact ⟨holds_nil, hs⟩
  | cons b outer ih =>
    obtain ⟨hb, houter⟩ := holds_cons.mp h
    obtain ⟨hb', hthrough⟩ := Block.pass_holds hb hs
    obtain ⟨houter', hout⟩ := ih houter hthrough
    exact ⟨holds_cons.mpr ⟨hb', houter'⟩, hout⟩

theorem close_holds {stack stack' : BlockStack} {out : List Statement}
    (hbind : ∀ s name value, P s → P (s.bind name value)) (h : stack.Holds P)
    (hc : stack.close = .ok (stack', out)) : stack'.Holds P ∧ ∀ s ∈ out, P s := by
  cases stack with
  | nil => exact absurd hc (by simp [close])
  | cons b outer =>
    obtain ⟨hb, houter⟩ := holds_cons.mp h
    have hp := pass_holds houter (Block.release_holds hbind hb)
    have heq : pass outer b.release = (stack', out) := by simpa [close] using hc
    rw [heq] at hp
    exact hp

end BlockStack

end Blocks

end Mlog
