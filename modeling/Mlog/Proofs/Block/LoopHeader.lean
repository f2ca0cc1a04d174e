import Mlog.Compile.Line
import Mlog.Proofs.Except

/-!
# Headers of loops

A loop header names a variable and says what the loop runs through: `in` with two bounds, or `of`
with elements.  `Loops` lists these headers without the reader, each with the elements it stands
for, and `loopParts_eq_ok_iff` says that the reader takes them and no others.

A bound is a number of 32 bits, with zeros in front or a `+` if one likes.  The elements of a range
are numbers again, written as short as they can be.  They are counted up to the upper bound and not
beyond it, so a range may end at the largest number there is (`element_of_loops`).
-/
set_option autoImplicit false

namespace Mlog

/-! ## Bounds -/

/-- A number is read from digits of its value, with a `+` in front or without. -/
theorem Number.whole?_eq_some_iff {bound n : Nat} {text : String} :
    whole? bound text = some n ↔
      n < bound ∧ ∃ ds : List Char, (text.toList = ds ∨ text.toList = '+' :: ds) ∧ ds ≠ [] ∧
        (∀ c ∈ ds, c.isDigit = true) ∧ Nat.ofDigitChars 10 ds 0 = n := by
  have hread : ∀ ds : List Char,
      (if !ds.isEmpty && ds.all Char.isDigit && ofDigits ds < bound then some (ofDigits ds)
        else none) = some n ↔
      n < bound ∧ ds ≠ [] ∧ (∀ c ∈ ds, c.isDigit = true) ∧ Nat.ofDigitChars 10 ds 0 = n := by
    intro ds
    have hvalue : Nat.ofDigitChars 10 ds 0 = ofDigits ds := rfl
    rw [hvalue]
    constructor
    · intro h
      split at h
      · next hds =>
        obtain rfl := Option.some.inj h
        simp only [Bool.and_eq_true, Bool.not_eq_true', List.isEmpty_eq_false_iff,
          List.all_eq_true, decide_eq_true_eq] at hds
        exact ⟨hds.2, hds.1.1, hds.1.2, rfl⟩
      · cases h
    · rintro ⟨hlt, hne, hdigits, rfl⟩
      simp [hne, hlt, List.all_eq_true.mpr hdigits]
  unfold whole?
  dsimp only
  split
  · next cs htext =>
    rw [hread, htext]
    constructor
    · rintro ⟨hlt, hds⟩
      exact ⟨hlt, cs, Or.inr rfl, hds⟩
    · rintro ⟨hlt, ds, rfl | hds, hne, hdigits, hvalue⟩
      · exact absurd (hdigits '+' List.mem_cons_self) (by decide)
      · obtain ⟨-, rfl⟩ := List.cons.inj hds
        exact ⟨hlt, hne, hdigits, hvalue⟩
  · next hplus =>
    rw [hread]
    constructor
    · rintro ⟨hlt, hds⟩
      exact ⟨hlt, text.toList, Or.inl rfl, hds⟩
    · rintro ⟨hlt, ds, hds | hds, hrest⟩
      · exact ⟨hlt, hds ▸ hrest⟩
      · exact absurd hds (hplus ds)

namespace Block

/-- A bound of a loop: a number of 32 bits in digits, perhaps behind a `+`. -/
structure IsBound (text : String) (n : Nat) : Prop where
  lt_limit : n < boundLimit
  written : ∃ ds : List Char, (text.toList = ds ∨ text.toList = '+' :: ds) ∧ ds ≠ [] ∧
    (∀ c ∈ ds, c.isDigit = true) ∧ Nat.ofDigitChars 10 ds 0 = n

theorem isBound_iff {text : String} {n : Nat} :
    IsBound text n ↔ Number.whole? boundLimit text = some n := by
  rw [Number.whole?_eq_some_iff]
  exact ⟨fun h => ⟨h.lt_limit, h.written⟩, fun h => ⟨h.1, h.2⟩⟩

instance (text : String) (n : Nat) : Decidable (IsBound text n) :=
  decidable_of_iff _ isBound_iff.symm

theorem parseBound_eq_ok_iff {text : String} {n : Nat} :
    parseBound text = .ok n ↔ IsBound text n := by
  rw [isBound_iff, parseBound]
  cases Number.whole? boundLimit text with
  | none => simp
  | some m => simp

/-- A number in its shortest form: digits without a sign, and no zero in front of others. -/
structure IsDecimal (text : String) (n : Nat) : Prop where
  nonempty : text ≠ ""
  digits : ∀ c ∈ text.toList, c.isDigit = true
  value : Nat.ofDigitChars 10 text.toList 0 = n
  zero : text.toList.head? = some '0' → text = "0"

theorem eq_zero_of_head?_toDigits {n : Nat} (h : (Nat.toDigits 10 n).head? = some '0') :
    n = 0 := by
  -- by removing the last digit, which leaves the first one in place
  induction n using Nat.strongRecOn with
  | ind n ih =>
    by_cases hlt : n < 10
    · rw [Nat.toDigits_of_lt_base hlt] at h
      have hdigit : Nat.digitChar n = '0' := Option.some.inj h
      have hcode := Nat.toNat_digitChar_of_lt_ten hlt
      rw [hdigit, show '0'.toNat = 48 from rfl] at hcode
      omega
    · obtain ⟨d, ds, hds⟩ := List.exists_cons_of_ne_nil (@Nat.toDigits_ne_nil (n / 10) 10)
      rw [Nat.toDigits_of_base_le (by decide) (Nat.le_of_not_lt hlt), hds] at h
      have hzero := ih (n / 10) (by omega) (by rw [hds]; exact h)
      omega

theorem isDecimal_toString (n : Nat) : IsDecimal (toString n) n := by
  have hlist : (toString n).toList = Nat.toDigits 10 n := by
    rw [Nat.toString_eq_repr, Nat.toList_repr]
  refine ⟨?_, ?_, ?_, ?_⟩
  · intro h
    rw [h] at hlist
    exact Nat.toDigits_ne_nil hlist.symm
  · rw [hlist]
    exact fun c hc => Nat.isDigit_of_mem_toDigits (by decide) (by decide) hc
  · rw [hlist]
    exact Nat.ofDigitChars_ten_toDigits
  · rw [hlist]
    intro h
    rw [eq_zero_of_head?_toDigits h]
    rfl

/-! ## Headers -/

/-- The headers of loops, each with the variable it names and the elements it stands for.  The
keyword in front is not looked at. -/
inductive Loops : List String → String → List String → Prop where
  | range {keyword name lowText highText : String} {low high : Nat} (hlow : IsBound lowText low)
      (hhigh : IsBound highText high) (hle : low ≤ high) (hspan : high - low ≤ maxLoopSpan) :
      Loops [keyword, name, "in", lowText, highText] name
        ((List.range' low (high - low + 1)).map toString)
  | each {keyword name : String} {elements : List String} (hne : elements ≠ []) :
      Loops (keyword :: name :: "of" :: elements) name elements

theorem range_eq {low high : Nat} (h : low ≤ high) :
    range low high = (List.range' low (high - low + 1)).map toString := by
  have hcount : high + 1 - low = high - low + 1 := by omega
  rw [range, hcount, List.range'_eq_map_range, List.map_map]
  rfl

theorem rangeElements_eq_ok_iff {lowText highText : String} {elements : List String} :
    rangeElements lowText highText = .ok elements ↔
      ∃ low high, IsBound lowText low ∧ IsBound highText high ∧ low ≤ high ∧
        high - low ≤ maxLoopSpan ∧
        elements = (List.range' low (high - low + 1)).map toString := by
  constructor
  · intro h
    obtain ⟨low, hlow, h⟩ := Except.bind_eq_ok_iff.mp h
    obtain ⟨high, hhigh, h⟩ := Except.bind_eq_ok_iff.mp h
    split at h
    · cases h
    next hle =>
      split at h
      · cases h
      next hspan =>
        have hle := Nat.le_of_not_lt hle
        refine ⟨low, high, parseBound_eq_ok_iff.mp hlow, parseBound_eq_ok_iff.mp hhigh, hle,
          Nat.le_of_not_lt hspan, ?_⟩
        rw [← range_eq hle]
        exact (Except.ok.inj h).symm
  · rintro ⟨low, high, hlow, hhigh, hle, hspan, rfl⟩
    refine Except.bind_eq_ok_iff.mpr ⟨low, parseBound_eq_ok_iff.mpr hlow,
      Except.bind_eq_ok_iff.mpr ⟨high, parseBound_eq_ok_iff.mpr hhigh, ?_⟩⟩
    rw [if_neg (Nat.not_lt.mpr hle), if_neg (Nat.not_lt.mpr hspan), range_eq hle]
    rfl

/-- **The reader takes the headers of loops and no others.** -/
theorem loopParts_eq_ok_iff {tokens : List String} {name : String} {elements : List String} :
    loopParts tokens = .ok (name, elements) ↔ Loops tokens name elements := by
  constructor
  · intro h
    unfold loopParts at h
    split at h
    · next keyword name' mode rest =>
      split at h
      · next hin =>
        obtain rfl : mode = "in" := by simpa using hin
        split at h
        · next lowText highText =>
          obtain ⟨values, hvalues, h⟩ := Except.bind_eq_ok_iff.mp h
          obtain ⟨rfl, rfl⟩ := Prod.mk.inj (Except.ok.inj h)
          obtain ⟨low, high, hlow, hhigh, hle, hspan, rfl⟩ := rangeElements_eq_ok_iff.mp hvalues
          exact .range hlow hhigh hle hspan
        · cases h
      · split at h
        · next hof =>
          obtain rfl : mode = "of" := by simpa using hof
          split at h
          · cases h
          · next hne =>
            obtain ⟨rfl, rfl⟩ := Prod.mk.inj (Except.ok.inj h)
            exact .each (by simpa using hne)
        · cases h
    · cases h
  · intro h
    cases h with
    | range hlow hhigh hle hspan =>
      have hvalues := rangeElements_eq_ok_iff.mpr ⟨_, _, hlow, hhigh, hle, hspan, rfl⟩
      exact Except.bind_eq_ok_iff.mpr ⟨_, hvalues, rfl⟩
    | each hne => simp [loopParts, hne]

/-- What a range stands for: as many numbers as its bounds are apart, and one more.  They go up by
one from the lower bound, and all are numbers that a bound can be. -/
theorem element_of_loops {keyword name lowText highText : String} {elements : List String}
    (h : Loops [keyword, name, "in", lowText, highText] name elements) :
    ∃ low high, IsBound lowText low ∧ IsBound highText high ∧
      elements.length = high - low + 1 ∧ elements.length ≤ 201 ∧
      ∀ k ≤ high - low, low + k < boundLimit ∧
        ∃ text, elements[k]? = some text ∧ IsDecimal text (low + k) := by
  generalize htokens : [keyword, name, "in", lowText, highText] = tokens at h
  cases h with
  | each hne => simp at htokens
  | @range _ _ _ _ low high hlow hhigh hle hspan =>
    simp only [List.cons.injEq, true_and, and_true] at htokens
    obtain ⟨-, rfl, rfl⟩ := htokens
    have hlength : ((List.range' low (high - low + 1)).map toString).length = high - low + 1 := by
      rw [List.length_map, List.length_range']
    refine ⟨low, high, hlow, hhigh, hlength, ?_, fun k hk => ⟨?_, ?_⟩⟩
    · rw [hlength]
      exact Nat.succ_le_succ hspan
    · have := hhigh.lt_limit
      omega
    · refine ⟨toString (low + k), ?_, isDecimal_toString (low + k)⟩
      rw [List.getElem?_map, List.getElem?_range' (Nat.lt_succ_of_le hk), Nat.one_mul,
        Option.map_some]

/-! ## Opening and closing loops -/

/-- What a loop releases, place by place: its first element's copies, then the second's, and so
on. -/
theorem getElem?_release {name value : String} {elements : List String} {buffer : List Statement}
    {s : Statement} {openedAt : Location} {i j : Nat} (hi : elements[i]? = some value)
    (hj : buffer[j]? = some s) :
    (release (.loop name elements buffer openedAt))[i * buffer.length + j]? =
      some (s.bind name value) := by
  have hlt : j < buffer.length := (List.getElem?_eq_some_iff.mp hj).1
  show (elements.flatMap fun value => buffer.map (Statement.bind name value))[_]? = _
  induction elements generalizing i with
  | nil => cases hi
  | cons first rest ih =>
    rw [List.flatMap_cons]
    cases i with
    | zero =>
      obtain rfl : first = value := Option.some.inj hi
      rw [Nat.zero_mul, Nat.zero_add, List.getElem?_append_left (by simpa using hlt),
        List.getElem?_map, hj, Option.map_some]
    | succ i =>
      have hplace : (i + 1) * buffer.length + j =
          (buffer.map (Statement.bind name first)).length + (i * buffer.length + j) := by
        rw [List.length_map, Nat.succ_mul]
        omega
      rw [hplace, List.getElem?_append_right (Nat.le_add_right _ _), Nat.add_sub_cancel_left]
      exact ih hi

theorem length_release {name : String} {elements : List String} {buffer : List Statement}
    {openedAt : Location} :
    (release (.loop name elements buffer openedAt)).length = elements.length * buffer.length := by
  show (elements.flatMap fun value => buffer.map (Statement.bind name value)).length = _
  induction elements with
  | nil => simp
  | cons first rest ih =>
    rw [List.flatMap_cons, List.length_append, List.length_map, ih, List.length_cons, Nat.succ_mul,
      Nat.add_comm]

end Block

/-- The compiler opens the block of a header, and reports a fault of the header where it stands. -/
theorem Compile.openBlock_eq {header : List String} {o : Overload} {kind : BlockKind}
    (hr : Instruction.resolve header = .ok o) (hk : o.block = some kind) (stack : BlockStack)
    (location : Location) :
    openBlock stack header location =
      { diagnostics := (stack.enter kind header location).2.toOption.getD []
        stack := (stack.enter kind header location).1
        result := ((stack.enter kind header location).2.map fun _ => []).mapError
          fun fault => .broken fault location } := by
  simp only [openBlock, hr, hk, BlockStack.enter]
  cases Block.ofHeader kind header location with
  | error fault => rfl
  | ok opened => rfl

namespace BlockStack

theorem enter_loop_eq_ok_iff {stack stack' : BlockStack} {tokens : List String}
    {location : Location} {warnings : List Diagnostic} :
    stack.enter .loop tokens location = (stack', .ok warnings) ↔
      ∃ name elements, Block.Loops tokens name elements ∧ warnings = [] ∧
        stack' = .loop name elements [] location :: stack := by
  simp only [← Block.loopParts_eq_ok_iff, enter, Block.ofHeader]
  cases hparts : Block.loopParts tokens with
  | error fault => simp [bind, Except.bind]
  | ok parts =>
    obtain ⟨name, elements⟩ := parts
    simp only [bind, Except.bind, pure, Except.pure, Prod.mk.injEq, Except.ok.injEq]
    constructor
    · rintro ⟨rfl, rfl⟩
      exact ⟨name, elements, ⟨rfl, rfl⟩, rfl, rfl⟩
    · rintro ⟨_, _, ⟨rfl, rfl⟩, rfl, rfl⟩
      exact ⟨rfl, rfl⟩

/-- **A loop is opened by a header that bounds it.**  Opening takes the headers of `Loops` and adds
their loop to the open blocks; it fails for every other header, and then adds nothing.  The elements
of a range are the numbers from the lower to the upper bound, 201 at most.  When the loop ends it
releases its statements once for each element, and the elements come in order. -/
theorem enter_loop (stack : BlockStack) (tokens : List String) (location : Location) :
    (∀ stack' warnings, stack.enter .loop tokens location = (stack', .ok warnings) ↔
      ∃ name elements, Block.Loops tokens name elements ∧ warnings = [] ∧
        stack' = .loop name elements [] location :: stack) ∧
    (∀ stack' fault, stack.enter .loop tokens location = (stack', .error fault) →
      stack' = stack) ∧
    (∀ o, Instruction.resolve tokens = .ok o → o.block = some .loop →
      Compile.openBlock stack tokens location =
        { diagnostics := (stack.enter .loop tokens location).2.toOption.getD []
          stack := (stack.enter .loop tokens location).1
          result := ((stack.enter .loop tokens location).2.map fun _ => []).mapError
            fun fault => .broken fault location }) ∧
    (∀ keyword name lowText highText elements,
      Block.Loops [keyword, name, "in", lowText, highText] name elements →
        ∃ low high, Block.IsBound lowText low ∧ Block.IsBound highText high ∧
          elements.length = high - low + 1 ∧ elements.length ≤ 201 ∧
          ∀ k ≤ high - low, low + k < Block.boundLimit ∧
            ∃ text, elements[k]? = some text ∧ Block.IsDecimal text (low + k)) ∧
    ∀ name elements buffer, ∃ released : List Statement,
      close (.loop name elements buffer location :: stack) = .ok (stack.pass released) ∧
      released.length = elements.length * buffer.length ∧
      ∀ i j value s, elements[i]? = some value → buffer[j]? = some s →
        released[i * buffer.length + j]? = some (s.bind name value) := by
  refine ⟨fun _ _ => enter_loop_eq_ok_iff, fun stack' fault h => ?_, fun o hr hk => ?_,
    fun _ _ _ _ _ h => Block.element_of_loops h, fun name elements buffer => ?_⟩
  · unfold enter at h
    split at h
    · exact nomatch (Prod.mk.inj h).2
    · exact (Prod.mk.inj h).1.symm
  · exact Compile.openBlock_eq hr hk stack location
  · exact ⟨_, rfl, Block.length_release, fun i j value s hi hj => Block.getElem?_release hi hj⟩

/-- The last three numbers of 32 bits, with a zero in front of one bound and a `+` in front of the
other. -/
theorem enter_loop_last :
    let tokens := ["&for", "i", "in", "04294967293", "+4294967295"]
    let elements := ["4294967293", "4294967294", "4294967295"]
    let s : Statement := ⟨["print", "$i"], ⟨"main.mlogx", 2, "print $i", "print $i", "print $i"⟩⟩
    Block.Loops tokens "i" elements ∧
      enter [] .loop tokens ⟨"main.mlogx", 1⟩ =
        ([.loop "i" elements [] ⟨"main.mlogx", 1⟩], .ok []) ∧
      (Compile.openBlock [] tokens ⟨"main.mlogx", 1⟩).stack =
        [.loop "i" elements [] ⟨"main.mlogx", 1⟩] ∧
      (enter [] .loop ["&for", "i", "in", "0", "201"] ⟨"main.mlogx", 1⟩).1 = [] ∧
      (∃ low high, Block.IsBound "04294967293" low ∧ Block.IsBound "+4294967295" high ∧
        elements.length = high - low + 1) ∧
      ∃ released, close [.loop "i" elements [s] ⟨"main.mlogx", 1⟩] = .ok ([], released) ∧
        released[2]? = some (s.bind "i" "4294967295") := by
  intro tokens elements s
  obtain ⟨hopens, -, hcompile, hrange, hclose⟩ := enter_loop [] tokens ⟨"main.mlogx", 1⟩
  have helements : elements =
      (List.range' 4294967293 (4294967295 - 4294967293 + 1)).map toString := by decide +kernel
  have hloops : Block.Loops tokens "i" elements := by
    rw [helements]
    exact .range (by decide +kernel) (by decide +kernel) (by decide) (by decide)
  have henter := (hopens _ _).mpr ⟨"i", elements, hloops, rfl, rfl⟩
  obtain ⟨o, hr, hk⟩ := Except.exists_of_toOption_map
    (show (Instruction.resolve tokens).toOption.map Overload.block = some (some .loop) by
      decide +kernel)
  have hfails : (enter [] .loop ["&for", "i", "in", "0", "201"] ⟨"main.mlogx", 1⟩).2 =
      .error (.loopTooLong 0 201) := rfl
  refine ⟨hloops, henter, ?_, ?_, ?_, ?_⟩
  · rw [hcompile o hr hk, henter]
  · exact (enter_loop [] ["&for", "i", "in", "0", "201"] ⟨"main.mlogx", 1⟩).2.1 _ _
      (Prod.ext rfl hfails)
  · obtain ⟨low, high, hlow, hhigh, hlength, -⟩ := hrange _ _ _ _ _ hloops
    exact ⟨low, high, hlow, hhigh, hlength⟩
  · obtain ⟨released, hreleased, -, hplace⟩ := hclose "i" elements [s]
    exact ⟨released, hreleased, hplace 2 0 "4294967295" s rfl rfl⟩

end BlockStack

end Mlog
