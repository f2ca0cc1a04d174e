import Mlog.Proofs.Line.Bind

/-!
# Tokens that are read back

A text is a token if it is divided into itself: it is not empty, its strings are closed, and no
space stands outside them (`isToken_iff`).  `read` follows a text character by character and
decides all of this at once; where it gets to the end of a text, the text may be continued from
there, so texts are put together from parts that are read one after the other.

Tokens joined by spaces are read back exactly if each of them is a token
(`tokens_intercalate_iff`).
-/
set_option autoImplicit false

namespace Mlog.Line

open Reference

/-- Reads a text up to its end: whether a string is open there, and whether a character behind it
would be escaped.  A space outside strings ends the reading before that. -/
def read : (inString escaped : Bool) → List Char → Option (Bool × Bool)
  | inString, escaped, [] => some (inString, escaped)
  | inString, escaped, c :: cs =>
    if c == '"' && !escaped then read (!inString) false cs
    else if c == ' ' && !inString then none
    else read inString (escapesNext escaped c) cs

/-- A text without a space outside strings that closes its strings. -/
def Reads (cs : List Char) : Prop := ∃ escaped, read false false cs = some (false, escaped)

section Read

variable {i e i' e' : Bool} {w : List Char}

theorem read_append (i e : Bool) (a b : List Char) :
    read i e (a ++ b) = (read i e a).bind fun place => read place.1 place.2 b := by
  induction a generalizing i e with
  | nil => rfl
  | cons c a ih =>
    rw [List.cons_append, read, read]
    split
    · exact ih _ _
    · split
      · rfl
      · exact ih _ _

/-- A text that is read to its end goes to the first piece. -/
theorem pieces_append_of_read (h : read i e w = some (i', e')) (cs : List Char) :
    pieces ' ' i e (w ++ cs) = w.foldr consFirst (pieces ' ' i' e' cs) := by
  induction w generalizing i e with
  | nil =>
    obtain ⟨rfl, rfl⟩ := Prod.mk.inj (Option.some.inj h)
    rfl
  | cons c w ih =>
    rw [read] at h
    rw [List.cons_append, pieces, List.foldr_cons]
    split
    · next hquote =>
      rw [if_pos hquote] at h
      rw [ih h]
    · next hquote =>
      rw [if_neg hquote] at h
      split
      · next hspace =>
        rw [if_pos hspace] at h
        cases h
      · next hspace =>
        rw [if_neg hspace] at h
        rw [ih h]

theorem pieces_of_read (h : read i e w = some (i', e')) : pieces ' ' i e w = [w] := by
  have happend := pieces_append_of_read h []
  rw [List.append_nil] at happend
  rw [happend, pieces, foldr_consFirst, List.append_nil]

theorem escapesNext_space (e : Bool) : escapesNext e ' ' = false := rfl

/-- A space behind a text that is read outside strings divides it. -/
theorem pieces_cut (h : read i e w = some (false, e')) (cs : List Char) :
    pieces ' ' i e (w ++ ' ' :: cs) = w :: pieces ' ' false false cs := by
  have hspace : pieces ' ' false e' (' ' :: cs) = [] :: pieces ' ' false false cs := by
    simp [pieces, escapesNext_space]
  rw [pieces_append_of_read h, hspace, foldr_consFirst, List.append_nil]

/-- A text is read to its end, or up to the first space that divides it. -/
theorem read_or_cut (i e : Bool) (cs : List Char) :
    (∃ place, read i e cs = some place) ∨
      ∃ w e' tail, cs = w ++ ' ' :: tail ∧ read i e w = some (false, e') := by
  induction cs generalizing i e with
  | nil => exact Or.inl ⟨_, rfl⟩
  | cons c cs ih =>
    -- a character that does not divide the text goes in front of what is read
    have front : ∀ i₁ e₁, (∀ w, read i e (c :: w) = read i₁ e₁ w) →
        (∃ place, read i e (c :: cs) = some place) ∨
          ∃ w e' tail, c :: cs = w ++ ' ' :: tail ∧ read i e w = some (false, e') := by
      intro i₁ e₁ hstep
      rcases ih i₁ e₁ with ⟨place, hplace⟩ | ⟨w, e', tail, rfl, hw⟩
      · exact Or.inl ⟨place, by rw [hstep, hplace]⟩
      · exact Or.inr ⟨c :: w, e', tail, rfl, by rw [hstep, hw]⟩
    by_cases hquote : (c == '"' && !e) = true
    · exact front (!i) false fun w => by rw [read, if_pos hquote]
    · by_cases hspace : (c == ' ' && !i) = true
      · obtain ⟨hc, hi⟩ := Bool.and_eq_true_iff.mp hspace
        obtain rfl : c = ' ' := beq_iff_eq.mp hc
        obtain rfl : i = false := by simpa using hi
        exact Or.inr ⟨[], e, cs, rfl, rfl⟩
      · exact front i (escapesNext e c) fun w => by rw [read, if_neg hquote, if_neg hspace]

end Read

/-! ## Strings that are left open -/

/-- Whether a string is left open does not depend on columns. -/
theorem isSome_openString {start start' : Option Nat} (hs : start.isSome = start'.isSome)
    (e : Bool) (column column' : Nat) (cs : List Char) :
    (openString start e column cs).isSome = (openString start' e column' cs).isSome := by
  induction cs generalizing start start' e column column' with
  | nil => exact hs
  | cons c cs ih =>
    rw [openString, openString]
    split
    · refine ih ?_ _ _ _
      rw [hs]
      cases start'.isSome <;> rfl
    · exact ih hs _ _ _

theorem isSome_openString_append {i e i' e' : Bool} {w : List Char}
    (h : read i e w = some (i', e')) (start start' : Option Nat) (hs : start.isSome = i)
    (hs' : start'.isSome = i') (column column' : Nat) (cs : List Char) :
    (openString start e column (w ++ cs)).isSome = (openString start' e' column' cs).isSome := by
  induction w generalizing i e start column with
  | nil =>
    obtain ⟨rfl, rfl⟩ := Prod.mk.inj (Option.some.inj h)
    exact isSome_openString (hs.trans hs'.symm) _ _ _ _
  | cons c w ih =>
    rw [read] at h
    rw [List.cons_append, openString]
    split
    · next hquote =>
      rw [if_pos hquote] at h
      refine ih h _ ?_ _
      subst hs
      cases start.isSome <;> rfl
    · next hquote =>
      rw [if_neg hquote] at h
      split at h
      · cases h
      · exact ih h start hs _

/-- All strings of the text are closed. -/
def Closed (cs : List Char) : Prop := (openString none false 1 cs).isSome = false

theorem closed_of_reads {w : List Char} (h : Reads w) : Closed w := by
  obtain ⟨e, h⟩ := h
  have happend := isSome_openString_append h none none rfl rfl 1 1 []
  rw [List.append_nil] at happend
  exact happend

theorem closed_cut {w : List Char} (h : Reads w) (cs : List Char) :
    Closed (w ++ ' ' :: cs) ↔ Closed cs := by
  obtain ⟨e, h⟩ := h
  have hspace : openString none e 1 (' ' :: cs) = openString none false 2 cs := by
    simp [openString, escapesNext_space]
  rw [Closed, isSome_openString_append h none none rfl rfl 1 1, hspace,
    isSome_openString rfl false 2 1, Closed]

theorem reads_of_closed {w : List Char} {place : Bool × Bool}
    (h : read false false w = some place) (hclosed : Closed w) : Reads w := by
  have happend := isSome_openString_append h none (if place.1 then some 1 else none) rfl
    (by cases place.1 <;> rfl) 1 1 []
  rw [List.append_nil, hclosed] at happend
  have hplace : place.1 = false := by
    cases hp : place.1 with
    | false => rfl
    | true =>
      rw [hp] at happend
      cases happend
  exact ⟨place.2, by rw [h, ← hplace]⟩

/-- A text closes its strings exactly if each of its pieces does: no string goes on behind a space
that divides. -/
theorem closed_iff {cs : List Char} :
    Closed cs ↔ ∀ piece ∈ pieces ' ' false false cs, Reads piece := by
  induction h : cs.length using Nat.strongRecOn generalizing cs with
  | ind n ih =>
    rcases read_or_cut false false cs with ⟨place, hplace⟩ | ⟨w, e, tail, rfl, hw⟩
    · rw [pieces_of_read hplace, List.forall_mem_singleton]
      exact ⟨reads_of_closed hplace, closed_of_reads⟩
    · have hreads : Reads w := ⟨e, hw⟩
      have hshorter : tail.length < n := by
        rw [← h, List.length_append, List.length_cons]
        omega
      rw [pieces_cut hw, List.forall_mem_cons, closed_cut hreads, ih _ hshorter rfl]
      exact (and_iff_right hreads).symm

/-! ## Tokens -/

/-- A text that is divided into itself. -/
def IsToken (token : String) : Prop := tokens token = .ok [token]

theorem tokens_eq_ok_iff {text : String} {ts : List String} :
    tokens text = .ok ts ↔ Closed text.toList ∧
      ts = ((pieces ' ' false false text.toList).filter (!·.isEmpty)).map String.ofList := by
  unfold tokens split Closed
  cases openString none false 1 text.toList with
  | some column =>
    constructor
    · intro h
      cases h
    · rintro ⟨h, -⟩
      cases h
  | none =>
    constructor
    · intro h
      exact ⟨rfl, (Except.ok.inj h).symm⟩
    · rintro ⟨-, rfl⟩
      rfl

theorem isToken_iff {token : String} :
    IsToken token ↔ token.toList ≠ [] ∧ Reads token.toList := by
  rw [IsToken, tokens_eq_ok_iff]
  constructor
  · rintro ⟨hclosed, hpieces⟩
    have hmem : token ∈ ((pieces ' ' false false token.toList).filter
        (!·.isEmpty)).map String.ofList := by
      rw [← hpieces]
      exact List.mem_singleton_self _
    obtain ⟨piece, hpiece, rfl⟩ := List.mem_map.mp hmem
    obtain ⟨hpiece, hne⟩ := List.mem_filter.mp hpiece
    rw [String.toList_ofList] at hclosed hpiece ⊢
    exact ⟨by simpa using hne, closed_iff.mp hclosed _ hpiece⟩
  · rintro ⟨hne, hreads⟩
    refine ⟨closed_of_reads hreads, ?_⟩
    obtain ⟨e, h⟩ := hreads
    rw [pieces_of_read h, List.filter_cons_of_pos (by simpa using hne)]
    simp

instance (token : String) : Decidable (IsToken token) :=
  decidable_of_iff
    (token.toList ≠ [] ∧ ((read false false token.toList).map Prod.fst) = some false) <| by
    rw [isToken_iff]
    refine and_congr_right fun _ => ?_
    simp [Reads]

/-- What a statement is divided into is tokens. -/
theorem isToken_of_mem_tokens {text token : String} {ts : List String}
    (h : tokens text = .ok ts) (ht : token ∈ ts) : IsToken token := by
  obtain ⟨hclosed, rfl⟩ := tokens_eq_ok_iff.mp h
  obtain ⟨piece, hpiece, rfl⟩ := List.mem_map.mp ht
  obtain ⟨hpiece, hne⟩ := List.mem_filter.mp hpiece
  rw [isToken_iff, String.toList_ofList]
  exact ⟨by simpa using hne, closed_iff.mp hclosed _ hpiece⟩

theorem tokens_cons {token text : String} {ts : List String} (ht : IsToken token)
    (h : tokens text = .ok ts) : tokens (token ++ " " ++ text) = .ok (token :: ts) := by
  obtain ⟨hne, hreads⟩ := isToken_iff.mp ht
  obtain ⟨hclosed, rfl⟩ := tokens_eq_ok_iff.mp h
  have htext : (token ++ " " ++ text).toList = token.toList ++ ' ' :: text.toList := by simp
  rw [tokens_eq_ok_iff, htext]
  refine ⟨(closed_cut hreads _).mpr hclosed, ?_⟩
  obtain ⟨e, hread⟩ := hreads
  rw [pieces_cut hread, List.filter_cons_of_pos (by simpa using hne)]
  simp

/-- **Tokens joined by spaces are read back** exactly if each of them is a token. -/
theorem tokens_intercalate_iff (ts : List String) :
    tokens (" ".intercalate ts) = .ok ts ↔ ∀ token ∈ ts, IsToken token := by
  constructor
  · intro h token ht
    exact isToken_of_mem_tokens h ht
  · intro h
    induction ts with
    | nil => rfl
    | cons token ts ih =>
      obtain ⟨htoken, hts⟩ := List.forall_mem_cons.mp h
      cases ts with
      | nil => exact htoken
      | cons token' ts =>
        rw [String.intercalate_cons_cons]
        exact tokens_cons htoken (ih hts)

/-! ## Putting texts together -/

section Quiet

variable {c : Char} {w : List Char}

theorem read_cons_quiet (hc : c ≠ ' ' ∧ c ≠ '"' ∧ c ≠ '\\') (i e : Bool) (cs : List Char) :
    read i e (c :: cs) = read i false cs := by
  have hescape : escapesNext e c = false := by simp [escapesNext, hc.2.2]
  simp [read, hc, hescape]

/-- Quiet characters change nothing about how what follows is read. -/
theorem read_append_quiet (hw : Quiet ' ' w) (hne : w ≠ []) (i e : Bool) (cs : List Char) :
    read i e (w ++ cs) = read i false cs := by
  induction w generalizing e with
  | nil => exact absurd rfl hne
  | cons c w ih =>
    obtain ⟨hc, hw⟩ := List.forall_mem_cons.mp hw
    rw [List.cons_append, read_cons_quiet hc]
    cases w with
    | nil => rfl
    | cons d w => exact ih hw (List.cons_ne_nil d w) false

theorem isToken_of_quiet {token : String} (hne : token.toList ≠ [])
    (h : Quiet ' ' token.toList) : IsToken token := by
  have hread := read_append_quiet h hne false false []
  rw [List.append_nil] at hread
  exact isToken_iff.mpr ⟨hne, false, hread⟩

/-- Texts may be joined by a quiet character: it ends an escape that the first may leave open. -/
theorem reads_append_cons (hc : c ≠ ' ' ∧ c ≠ '"' ∧ c ≠ '\\') {a b : List Char} (ha : Reads a)
    (hb : Reads b) : Reads (a ++ c :: b) := by
  obtain ⟨e, ha⟩ := ha
  obtain ⟨e', hb⟩ := hb
  refine ⟨e', ?_⟩
  rw [read_append, ha, Option.bind_some, read_cons_quiet hc, hb]

end Quiet

section Fill

variable {value : String → Option String}

theorem quiet_reference {name : String} {cs rest : List Char} (h : Refers name cs rest) :
    ∃ p, cs = p ++ rest ∧ '$' ∉ p ∧ Quiet ' ' ('$' :: p) :=
  quiet_of_refers (by decide) (by decide) h

/-- Quiet values in place of references change nothing about how a text is read. -/
theorem read_fillChars (hvalue : ∀ name cs rest, Refers name cs rest → ∀ text,
      value name = some text → text.toList ≠ [] ∧ Quiet ' ' text.toList)
    (i e : Bool) (cs : List Char) : read i e (fillChars value cs) = read i e cs := by
  have hdollar : '$' ≠ ' ' ∧ '$' ≠ '"' ∧ '$' ≠ '\\' := by decide
  induction cs using text_induction generalizing i e with
  | nil => rfl
  | plain c cs hc ih => rw [fillChars_cons hc, read, read, ih, ih]
  | stray cs hstray ih =>
    rw [fillChars_of_stray hstray, read_cons_quiet hdollar, read_cons_quiet hdollar, ih]
  | reference name cs rest href ih =>
    obtain ⟨p, rfl, hplain, hquiet⟩ := quiet_reference href
    rw [← List.cons_append, read_append_quiet hquiet (List.cons_ne_nil _ _), List.cons_append]
    cases hv : value name with
    | some text =>
      obtain ⟨hne, htext⟩ := hvalue name _ rest href text hv
      rw [fillChars_of_refers href hv, read_append_quiet htext hne, ih]
    | none =>
      -- a reference without a value is kept as it was written, and it is quiet itself
      have hnone : ∀ name', target? (p ++ rest) = some name' → value name' = none := by
        intro name' ht
        obtain ⟨rest', href'⟩ := target?_eq_some_iff.mp ht
        rw [← (href.unique href').1, hv]
      rw [fillChars_of_none hnone, fillChars_append_of_not_mem hplain, ← List.cons_append,
        read_append_quiet hquiet (List.cons_ne_nil _ _), ih]

/-- A token with a quiet value in place of a reference is a token. -/
theorem IsToken.bind {token name value : String} (h : IsToken token) (hne : value.toList ≠ [])
    (hquiet : Quiet ' ' value.toList) : IsToken (Reference.bind name value token) := by
  have hvalue : QuietValues ' ' fun n => if n = name then some value else none :=
    quietValues_single hne hquiet
  obtain ⟨htoken, e, hread⟩ := isToken_iff.mp h
  rw [isToken_iff, Reference.bind, toList_fill]
  refine ⟨?_, e, ?_⟩
  · have hspace : isBreak ' ' = true := by decide
    exact mt (fillChars_eq_nil_iff hspace (by decide) hvalue).mp htoken
  · rw [read_fillChars fun name _ _ _ => hvalue name, hread]

/-- Quiet values in place of references open no string and close none. -/
theorem closed_fillChars (hvalue : QuietValues ' ' value) {cs : List Char} :
    Closed (fillChars value cs) ↔ Closed cs := by
  rw [closed_iff, pieces_fillChars (by decide) (by decide) hvalue, List.forall_mem_map, closed_iff]
  refine forall₂_congr fun piece _ => ?_
  rw [Reads, read_fillChars fun name _ _ _ => hvalue name, Reads]

/-- **The tokens of a statement with a variable bound** are its tokens, each with the variable
bound. -/
theorem tokens_bind (name : String) {value text : String} {ts : List String}
    (hne : value.toList ≠ []) (hquiet : Quiet ' ' value.toList) (h : tokens text = .ok ts) :
    tokens (Reference.bind name value text) = .ok (ts.map (Reference.bind name value)) := by
  have hvalue : QuietValues ' ' fun n => if n = name then some value else none :=
    quietValues_single hne hquiet
  have hspace : isBreak ' ' = true := by decide
  obtain ⟨hclosed, rfl⟩ := tokens_eq_ok_iff.mp h
  rw [tokens_eq_ok_iff, Reference.bind, toList_fill, closed_fillChars hvalue,
    pieces_fillChars hspace (by decide) hvalue, List.filter_map, List.map_map, List.map_map]
  refine ⟨hclosed, ?_⟩
  -- a piece is as empty as it was, and what is filled in it is what is bound in its text
  have hempty : ((fun piece => !List.isEmpty piece) ∘
      fillChars fun n => if n = name then some value else none) =
      fun piece : List Char => !piece.isEmpty := by
    funext piece
    have hnil := @fillChars_eq_nil_iff ' ' _ hspace (by decide) hvalue piece
    rw [Function.comp_apply, Bool.eq_iff_iff]
    simp [List.isEmpty_eq_false_iff, hnil]
  rw [hempty]
  refine List.map_congr_left fun piece _ => ?_
  apply String.toList_injective
  simp [Reference.bind, toList_fill]

/-- Delimiting the references of a text changes nothing about how it is read. -/
theorem reads_delimit {text : String} (h : Reads text.toList) :
    Reads (delimit text).toList := by
  obtain ⟨e, hread⟩ := h
  refine ⟨e, ?_⟩
  rw [delimit, toList_fill, read_fillChars, hread]
  intro name cs rest href written hwritten
  obtain rfl := Option.some.inj hwritten
  have hdelimited : Refers name ('(' :: (name.toList ++ ')' :: [])) [] := by
    refine Or.inr ⟨?_, rfl⟩
    rcases href with ⟨hbare, -, -⟩ | ⟨hdelimited, -⟩
    · refine isDelimitedName_iff.mpr ⟨?_, fun c hc => ?_⟩
      · obtain ⟨c, cs, hname, -⟩ := isBareName_iff.mp hbare
        rw [hname]
        exact List.cons_ne_nil _ _
      · exact isDelimitedChar_of_isWord (isWord_of_isBareName hbare c hc)
    · exact hdelimited
  obtain ⟨p, hp, -, hquiet⟩ := quiet_reference hdelimited
  have hlist : ("$(" ++ name ++ ")").toList = '$' :: p := by
    rw [List.append_nil] at hp
    rw [← hp]
    simp
  rw [hlist]
  exact ⟨List.cons_ne_nil _ _, hquiet⟩

end Fill

end Mlog.Line
