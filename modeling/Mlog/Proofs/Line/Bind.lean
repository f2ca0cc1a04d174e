import Mlog.Line.Split
import Mlog.Proofs.Reference.Scan

/-!
# Dividing a text and putting values in

A text is divided at separators outside its strings, and references in it get their values.  Where
the values hold no separator, no quote and no backslash, the order does not matter: neither where
strings begin and end nor where the text is divided depends on them (`pieces_fillChars`).
-/
set_option autoImplicit false

namespace Mlog.Line

open Reference

/-- Characters that a divided text passes over: no separator, quote or backslash. -/
def Quiet (sep : Char) (w : List Char) : Prop := ∀ c ∈ w, c ≠ sep ∧ c ≠ '"' ∧ c ≠ '\\'

/-- Values that leave the division of a text alone. -/
def QuietValues (sep : Char) (value : String → Option String) : Prop :=
  ∀ name text, value name = some text → text.toList ≠ [] ∧ Quiet sep text.toList

/-- One quiet value for one name. -/
theorem quietValues_single {sep : Char} {name value : String} (hne : value.toList ≠ [])
    (hvalue : Quiet sep value.toList) :
    QuietValues sep fun n => if n = name then some value else none := by
  intro n text htext
  obtain ⟨-, rfl⟩ : n = name ∧ value = text := by simpa using htext
  exact ⟨hne, hvalue⟩

section Pieces

variable {sep : Char}

theorem foldr_consFirst (w piece : List Char) (rest : List (List Char)) :
    w.foldr consFirst (piece :: rest) = (w ++ piece) :: rest := by
  induction w with
  | nil => rfl
  | cons c w ih => rw [List.foldr_cons, ih, consFirst, List.cons_append]

theorem pieces_cons_quiet {c : Char} (hc : c ≠ sep ∧ c ≠ '"' ∧ c ≠ '\\')
    (inString escaped : Bool) (cs : List Char) :
    pieces sep inString escaped (c :: cs) = consFirst c (pieces sep inString false cs) := by
  have hescape : escapesNext escaped c = false := by simp [escapesNext, hc.2.2]
  simp [pieces, hc, hescape]

/-- Quiet characters go to the first piece, and escape nothing behind them. -/
theorem pieces_append_quiet {w : List Char} (hw : Quiet sep w) (hne : w ≠ [])
    (inString escaped : Bool) (cs : List Char) :
    pieces sep inString escaped (w ++ cs) =
      w.foldr consFirst (pieces sep inString false cs) := by
  induction w generalizing escaped with
  | nil => exact absurd rfl hne
  | cons c w ih =>
    obtain ⟨hc, hw⟩ := List.forall_mem_cons.mp hw
    rw [List.cons_append, pieces_cons_quiet hc, List.foldr_cons]
    cases w with
    | nil => rfl
    | cons d w => rw [ih hw (List.cons_ne_nil d w)]

/-- The first piece is the text up to the end or a separator. -/
theorem exists_pieces_eq_cons (sep : Char) (inString escaped : Bool) (cs : List Char) :
    ∃ first rest tail, pieces sep inString escaped cs = first :: rest ∧ cs = first ++ tail ∧
      ∀ c, tail.head? = some c → c = sep := by
  induction cs generalizing inString escaped with
  | nil => exact ⟨[], [], [], rfl, rfl, fun c hc => nomatch hc⟩
  | cons c cs ih =>
    -- a character goes in front of the first piece behind it, unless it is a separator
    have front : ∀ inString' escaped', ∃ first rest tail,
        consFirst c (pieces sep inString' escaped' cs) = first :: rest ∧
          c :: cs = first ++ tail ∧ ∀ d, tail.head? = some d → d = sep := by
      intro inString' escaped'
      obtain ⟨first, rest, tail, hpieces, hcs, htail⟩ := ih inString' escaped'
      exact ⟨c :: first, rest, tail, by rw [hpieces, consFirst], by rw [hcs, List.cons_append],
        htail⟩
    rw [pieces]
    split
    · exact front _ _
    · split
      · next hsep =>
        refine ⟨[], _, c :: cs, rfl, rfl, fun d hd => ?_⟩
        simp only [Bool.and_eq_true, beq_iff_eq] at hsep
        rw [← Option.some.inj hd, hsep.1]
      · exact front _ _

end Pieces

section Fill

variable {sep : Char} {value : String → Option String}

/-- What a reference is read from is quiet. -/
theorem quiet_of_refers (hsep : isBreak sep = true) (hdollar : sep ≠ '$') {name : String}
    {cs rest : List Char} (h : Refers name cs rest) :
    ∃ p, cs = p ++ rest ∧ '$' ∉ p ∧ Quiet sep ('$' :: p) := by
  obtain ⟨p, hp, hbreak⟩ := h.split
  have hne : ∀ c ∈ p, ∀ d, isBreak d = true → c ≠ d := by
    intro c hc d hd heq
    rw [heq] at hc
    rw [hbreak d hc] at hd
    cases hd
  refine ⟨p, hp, fun hmem => hne '$' hmem '$' (by decide) rfl, ?_⟩
  refine List.forall_mem_cons.mpr ⟨⟨hdollar.symm, by decide, by decide⟩, fun c hc => ?_⟩
  exact ⟨hne c hc sep hsep, hne c hc '"' (by decide), hne c hc '\\' (by decide)⟩

/-- A reference is filled in one go, with quiet text. -/
theorem exists_fillChars_of_refers (hsep : isBreak sep = true) (hdollar : sep ≠ '$')
    (hvalue : QuietValues sep value) {name : String} {cs rest : List Char}
    (h : Refers name cs rest) :
    ∃ w, w ≠ [] ∧ Quiet sep w ∧ fillChars value ('$' :: cs) = w ++ fillChars value rest := by
  cases hv : value name with
  | some text =>
    obtain ⟨hne, hquiet⟩ := hvalue name text hv
    exact ⟨text.toList, hne, hquiet, fillChars_of_refers h hv⟩
  | none =>
    obtain ⟨p, hp, hplain, hquiet⟩ := quiet_of_refers hsep hdollar h
    refine ⟨'$' :: p, List.cons_ne_nil _ _, hquiet, ?_⟩
    have hnone : ∀ name', target? cs = some name' → value name' = none := by
      intro name' ht
      obtain ⟨rest', h'⟩ := target?_eq_some_iff.mp ht
      rw [← (h.unique h').1]
      exact hv
    rw [fillChars_of_none hnone, hp, fillChars_append_of_not_mem hplain, List.cons_append]

/-- **Dividing and filling commute.** -/
theorem pieces_fillChars (hsep : isBreak sep = true) (hdollar : sep ≠ '$')
    (hvalue : QuietValues sep value) (inString escaped : Bool) (cs : List Char) :
    pieces sep inString escaped (fillChars value cs) =
      (pieces sep inString escaped cs).map (fillChars value) := by
  have breaks : ∀ tail : List Char, (∀ c, tail.head? = some c → c = sep) → Breaks tail :=
    fun tail htail c hc => htail c hc ▸ hsep
  induction cs using text_induction generalizing inString escaped with
  | nil => rfl
  | plain c cs hc ih =>
    have front : ∀ ps : List (List Char), ps ≠ [] →
        (consFirst c ps).map (fillChars value) = consFirst c (ps.map (fillChars value)) := by
      intro ps hps
      obtain ⟨first, rest, rfl⟩ := List.exists_cons_of_ne_nil hps
      simp only [consFirst, List.map_cons, fillChars_cons hc]
    have hne : ∀ inString escaped, pieces sep inString escaped cs ≠ [] := by
      intro inString escaped
      obtain ⟨first, rest, -, h, -⟩ := exists_pieces_eq_cons sep inString escaped cs
      rw [h]
      exact List.cons_ne_nil _ _
    rw [fillChars_cons hc, pieces, pieces, ih, ih, ih]
    split
    · rw [front _ (hne _ _)]
    · split
      · rw [List.map_cons, fillChars_nil]
      · rw [front _ (hne _ _)]
  | stray cs hstray ih =>
    obtain ⟨first, rest, tail, hpieces, hcs, htail⟩ :=
      exists_pieces_eq_cons sep inString false cs
    have hquiet : '$' ≠ sep ∧ '$' ≠ '"' ∧ '$' ≠ '\\' := ⟨hdollar.symm, by decide, by decide⟩
    have hfirst : target? first = none := by
      rw [hcs, target?_append (breaks tail htail)] at hstray
      exact hstray
    rw [fillChars_of_stray hstray, pieces_cons_quiet hquiet, pieces_cons_quiet hquiet, ih, hpieces]
    simp only [List.map_cons, consFirst, fillChars_of_stray hfirst]
  | reference name cs rest href ih =>
    obtain ⟨p, hp, -, hquiet⟩ := quiet_of_refers hsep hdollar href
    obtain ⟨w, hne, hw, hfill⟩ := exists_fillChars_of_refers hsep hdollar hvalue href
    obtain ⟨first, others, tail, hpieces, hrest, htail⟩ :=
      exists_pieces_eq_cons sep inString false rest
    -- the reference is the same one when it is read in its piece alone
    have hfirst : fillChars value ('$' :: p ++ first) = w ++ fillChars value first := by
      have hb := breaks tail htail
      have hsplit : '$' :: cs = ('$' :: p ++ first) ++ tail := by
        rw [hp, hrest, List.cons_append, List.cons_append, List.append_assoc]
      rw [hsplit, hrest, fillChars_append hb, fillChars_append hb, ← List.append_assoc] at hfill
      exact List.append_cancel_right hfill
    rw [hfill, pieces_append_quiet hw hne, ih, hpieces, hp, ← List.cons_append,
      pieces_append_quiet hquiet (List.cons_ne_nil _ _), hpieces]
    simp only [List.map_cons, foldr_consFirst, hfirst]

theorem fillChars_eq_nil_iff (hsep : isBreak sep = true) (hdollar : sep ≠ '$')
    (hvalue : QuietValues sep value) {cs : List Char} : fillChars value cs = [] ↔ cs = [] := by
  induction cs using text_induction with
  | nil => simp
  | plain c cs hc ih => simp [fillChars_cons hc]
  | stray cs hstray ih => simp [fillChars_of_stray hstray]
  | reference name cs rest href ih =>
    obtain ⟨w, hne, -, hfill⟩ := exists_fillChars_of_refers hsep hdollar hvalue href
    simp [hfill, hne]

end Fill

end Mlog.Line
