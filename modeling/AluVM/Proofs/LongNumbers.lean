import AluVM.Proofs.Meaning

/-! # Numbers that are too long to be read

The numbers and strings of a source are those of its statements: every step of the reader puts one
that it reads into the line under way (`step_values`), so a whole text and its statements have the
same ones in the same order (`values_of_rest`). Statements denote items exactly if all their numbers
are read (`itemsOf_isOk_iff`). So a text that derives from the grammar has a number that is too long
exactly if it is refused for one (`parse_eq_overlong_iff`), and a program is denoted by every
derivation of its text (`denote_of_parse`). -/

namespace AluVM.Syntax

open Grammar

variable {names : CharacterNames}

/-! ### The words with values -/

/-- The numbers among the words of an operand. -/
def Argument.numbers : Argument → List Token
  | number value => [value]
  | indexed _ index => [index]
  | _ => []

/-- The numbers and strings among the words of a statement. -/
def Statement.values : Statement → List Token
  | constant _ value => [value]
  | string _ literal => [literal]
  | numbers _ _ values => values
  | instruction _ _ arguments => arguments.flatMap Argument.numbers
  | _ => []

/-- The numbers among the operands of an instruction under way. -/
def Head.numbers (h : Head) : List Token := h.done.reverse.flatMap Argument.numbers

/-- The numbers and strings among the words of a line under way. -/
def Line.values : Line → List Token
  | complete s => s.values
  | constantValue _ value => [value]
  | dataMore _ _ done | dataValue _ _ done => done.reverse
  | operandNumber head value => head.numbers ++ [value]
  | operandIndex head _ index => head.numbers ++ [index]
  | operandName head _ | operandDone head | operandNext head | operandDot head _
  | operandBracket head _ => head.numbers
  | _ => []

/-- The word as a number or string of the source, if it is one. -/
def Token.value? (t : Token) : List Token :=
  if t.terminal = .number ∨ t.terminal = .string then [t] else []

theorem extend_values {s : State} {t : Token} {line : Line} (h : s.extend t = some line) :
    line.values = s.line.values ++ t.value? := by
  obtain ⟨part, old⟩ := s
  obtain ⟨k, text, pos⟩ := t
  simp only [State.extend] at h
  split at h
  case h_1 =>
    obtain ⟨k, -, rfl⟩ := Option.map_eq_some_iff.mp h
    cases k <;> rfl
  all_goals cases h
  all_goals simp [Line.values, Statement.values, Head.numbers, Argument.numbers, Token.value?]

/-- Where a section or the text may end, no number or string is under way. -/
theorem values_of_allows {s : State} {k : Terminal} (hk : k ∈ Terminal.keywords ∨ k = .endOfText)
    (h : k ∈ s.allows) : s.line.values = [] := by
  have hline : s.line = .first ∨ s.line = .blank ∨
      ∀ j ∈ s.allows, ¬ (j ∈ Terminal.keywords ∨ j = .endOfText) := by
    obtain ⟨part, line⟩ := s
    cases line
    case first => exact .inl rfl
    case blank => exact .inr (.inl rfl)
    all_goals
      refine .inr (.inr ?_)
      simp only [State.allows, Line.scans]
      decide
  rcases hline with hline | hline | hno
  · rw [hline]
    rfl
  · rw [hline]
    rfl
  · exact absurd hk (hno k h)

/-- Where a line may end, its numbers and strings are those of its statement. -/
theorem values_of_newline {s : State} (h : .newline ∈ s.allows) :
    s.statement?.toList.flatMap Statement.values = s.line.values := by
  obtain ⟨part, line⟩ := s
  cases line <;>
    simp [State.allows, Line.scans, Terminal.keywords, Section.all] at h <;>
    simp [State.statement?, Line.values, Statement.values, Head.numbers, Argument.numbers]

/-- **A step loses no number or string and adds none but the word itself.** -/
theorem step_values {s next : State} {t : Token} (h : s.step t = some next) :
    (if t.terminal = .newline then s.statement?.toList else []).flatMap Statement.values ++
      next.line.values = s.line.values ++ t.value? := by
  unfold State.step at h
  split_ifs at h with hallows
  split at h
  case h_1 k hk =>
    rw [hk] at hallows
    have hempty := values_of_allows (.inl (by cases k <;> decide)) hallows
    cases h
    rw [hk, hempty, if_neg (by simp), Token.value?, hk, if_neg (by simp)]
    cases k <;> rfl
  case h_2 hk =>
    rw [hk] at hallows
    cases h
    rw [hk, if_pos rfl, values_of_newline hallows, Token.value?, hk, if_neg (by decide)]
    rfl
  case h_3 _ hnewline =>
    obtain ⟨line, hline, rfl⟩ := Option.map_eq_some_iff.mp h
    rw [if_neg hnewline]
    exact extend_values hline

/-- **What completes a line has the numbers and strings of the statements**, in order. -/
theorem values_of_rest {s : State} (hs : Proper s) {ts : List Token} {sts : List Statement}
    (h : (rest s).Derives ts sts) :
    s.line.values ++ ts.flatMap Token.value? = sts.flatMap Statement.values := by
  induction ts generalizing s sts with
  | nil =>
    obtain ⟨hend, rfl⟩ := (nil_rest s sts).mp h
    rw [values_of_allows (.inr rfl) hend]
    rfl
  | cons t ts ih =>
    obtain ⟨next, sts', hstep, hrest, rfl⟩ := (rest_cons hs).mp h
    rw [List.flatMap_append, ← ih (Proper.step hstep) hrest, List.flatMap_cons,
      ← List.append_assoc, ← List.append_assoc, step_values hstep]

/-! ### Reading the numbers -/

/-- The word is read as an integer. -/
def Token.IsRead (t : Token) : Prop := ∃ i, t.immediate = .ok i

/-- **A number is read** unless it is too long. -/
theorem Token.isRead_iff {t : Token} (h : t.text.toList ∈ Terminal.number.language) :
    t.IsRead ↔ Numeral.Short t.text.toList := by
  constructor
  · rintro ⟨i, hi⟩
    by_contra hlong
    have herror := Numeral.read_of_not_short hlong
    rw [String.ofList_toList] at herror
    obtain ⟨v, hv, -⟩ := Steps.bind_eq_ok.mp hi
    rw [herror] at hv
    cases hv
  · intro hshort
    obtain ⟨v, hv⟩ := Numeral.exists_denotes h hshort
    have hdenotes : t.Denotes ⟨v, t.text, 0⟩ := ⟨hv, rfl, rfl⟩
    exact ⟨_, hdenotes.immediate_eq⟩

theorem exists_mapM_iff {α β ε : Type} {f : α → Except ε β} {xs : List α} :
    (∃ ys, xs.mapM f = .ok ys) ↔ ∀ x ∈ xs, ∃ y, f x = .ok y := by
  simp only [Steps.mapM_eq_ok]
  constructor
  · rintro ⟨ys, h⟩ x hx
    obtain ⟨y, -, hy⟩ := Steps.exists_mem_right h x hx
    exact ⟨y, hy⟩
  · exact Steps.exists_forall₂

theorem Argument.Typed.numbers {a : Argument} (h : a.Typed) : ∀ t ∈ a.numbers, t.Is .number := by
  cases a with
  | number => exact List.forall_mem_singleton.mpr h
  | indexed => exact List.forall_mem_singleton.mpr h.2
  | _ => simp [Argument.numbers]

theorem forall_number_iff {ts : List Token} (h : ∀ t ∈ ts, t.Is .number) :
    (∀ t ∈ ts, t.terminal = .number → t.IsRead) ↔ ∀ t ∈ ts, t.IsRead := by
  refine forall₂_congr fun t ht => ?_
  simp [(h t ht).terminal]

theorem operand_isOk_iff {a : Argument} :
    (∃ o, a.operand = .ok o) ↔ ∀ t ∈ a.numbers, t.IsRead := by
  cases a with
  | number value =>
    rw [Argument.numbers, List.forall_mem_singleton]
    constructor
    · rintro ⟨o, ho⟩
      obtain ⟨i, hi, -⟩ := Steps.map_eq_ok.mp ho
      exact ⟨i, hi⟩
    · rintro ⟨i, hi⟩
      exact ⟨_, Steps.map_eq_ok.mpr ⟨i, hi, rfl⟩⟩
  | indexed set index =>
    rw [Argument.numbers, List.forall_mem_singleton]
    constructor
    · rintro ⟨o, ho⟩
      obtain ⟨i, hi, -⟩ := Steps.bind_eq_ok.mp ho
      exact ⟨i, hi⟩
    · rintro ⟨i, hi⟩
      exact ⟨_, Steps.bind_eq_ok.mpr ⟨i, hi, rfl⟩⟩
  | _ => simp [Argument.operand, Argument.numbers]

/-- A statement is added exactly if its numbers are read. -/
theorem addStatement_isOk_iff {st : Statement} (hst : st.Typed) (tail : Tail) :
    (∃ tail', addStatement names st tail = .ok tail') ↔
      ∀ t ∈ st.values, t.terminal = .number → t.IsRead := by
  cases st with
  | constant name value =>
    rw [Statement.values, forall_number_iff (List.forall_mem_singleton.mpr hst.2),
      List.forall_mem_singleton]
    constructor
    · rintro ⟨tail', h⟩
      obtain ⟨item?, hitem, -⟩ := Steps.bind_eq_ok.mp h
      obtain ⟨i, hi, -⟩ := Steps.bind_eq_ok.mp hitem
      exact ⟨i, hi⟩
    · rintro ⟨i, hi⟩
      exact ⟨_, Steps.bind_eq_ok.mpr ⟨_, Steps.bind_eq_ok.mpr ⟨i, hi, rfl⟩, rfl⟩⟩
  | numbers name type values =>
    have hvalues : (∃ is, values.mapM Token.immediate = .ok is) ↔ ∀ t ∈ values, t.IsRead :=
      exists_mapM_iff
    rw [Statement.values, forall_number_iff hst.2.2.2, ← hvalues]
    constructor
    · rintro ⟨tail', h⟩
      obtain ⟨item?, hitem, -⟩ := Steps.bind_eq_ok.mp h
      obtain ⟨is, his, -⟩ := Steps.bind_eq_ok.mp hitem
      exact ⟨is, his⟩
    · rintro ⟨is, his⟩
      exact ⟨_, Steps.bind_eq_ok.mpr ⟨_, Steps.bind_eq_ok.mpr ⟨is, his, rfl⟩, rfl⟩⟩
  | instruction label mnemonic arguments =>
    have hoperands : (∃ os, arguments.mapM Argument.operand = .ok os) ↔
        ∀ t ∈ arguments.flatMap Argument.numbers, t.IsRead := by
      simp only [exists_mapM_iff, operand_isOk_iff, List.forall_mem_flatMap]
    rw [Statement.values, forall_number_iff
      (List.forall_mem_flatMap.mpr fun a ha => (hst.2.2 a ha).numbers), ← hoperands]
    constructor
    · rintro ⟨tail', h⟩
      obtain ⟨item?, hitem, h⟩ := Steps.bind_eq_ok.mp h
      cases hitem
      obtain ⟨ns, hns, -⟩ := Steps.bind_eq_ok.mp h
      obtain ⟨os, hos, -⟩ := Steps.bind_eq_ok.mp hns
      exact ⟨os, hos⟩
    · rintro ⟨os, hos⟩
      have hnodes : ∃ ns, (Statement.instruction label mnemonic arguments).nodes = .ok ns :=
        ⟨_, Steps.bind_eq_ok.mpr ⟨os, hos, rfl⟩⟩
      obtain ⟨ns, hns⟩ := hnodes
      exact ⟨_, Steps.bind_eq_ok.mpr ⟨none, rfl, Steps.bind_eq_ok.mpr ⟨ns, hns, rfl⟩⟩⟩
  | string name literal =>
    exact ⟨fun _ => by simp [Statement.values, hst.2.terminal], fun _ => ⟨_, rfl⟩⟩
  | _ => exact ⟨fun _ => by simp [Statement.values], fun _ => ⟨_, rfl⟩⟩

theorem addAll_isOk_iff {sts : List Statement} (hsts : ∀ st ∈ sts, st.Typed) (tail : Tail) :
    (∃ tail', addAll names sts tail = .ok tail') ↔
      ∀ st ∈ sts, ∀ t ∈ st.values, t.terminal = .number → t.IsRead := by
  induction sts generalizing tail with
  | nil => simp [addAll]
  | cons st sts ih =>
    obtain ⟨hst, hsts⟩ := List.forall_mem_cons.mp hsts
    rw [List.forall_mem_cons, ← addStatement_isOk_iff hst tail]
    constructor
    · rintro ⟨tail', h⟩
      obtain ⟨next, hnext, h⟩ := Steps.bind_eq_ok.mp h
      exact ⟨⟨next, hnext⟩, (ih hsts next).mp ⟨tail', h⟩⟩
    · rintro ⟨⟨next, hnext⟩, hread⟩
      obtain ⟨tail', h⟩ := (ih hsts next).mpr hread
      exact ⟨tail', Steps.bind_eq_ok.mpr ⟨next, hnext, h⟩⟩

/-- **Statements denote items** exactly if their numbers are read. -/
theorem itemsOf_isOk_iff {sts : List Statement} (hsts : ∀ st ∈ sts, st.Typed) :
    (∃ items, itemsOf names sts = .ok items) ↔
      ∀ t ∈ sts.flatMap Statement.values, t.terminal = .number → t.IsRead := by
  have hall := @addAll_isOk_iff names sts.reverse (by simpa using hsts) ([], [])
  simp only [List.mem_reverse] at hall
  constructor
  · rintro ⟨items, h⟩ t ht
    obtain ⟨tail, htail, -⟩ := Steps.bind_eq_ok.mp h
    obtain ⟨st, hst, ht⟩ := List.mem_flatMap.mp ht
    exact hall.mp ⟨tail, htail⟩ st hst t ht
  · intro h
    obtain ⟨tail, htail⟩ := hall.mpr fun st hst t ht => h t (List.mem_flatMap.mpr ⟨st, hst, ht⟩)
    exact ⟨_, Steps.bind_eq_ok.mpr ⟨tail, htail, rfl⟩⟩

/-- Statements have no bad literals exactly if their strings have values. -/
theorem badLiterals_eq_nil_iff {sts : List Statement} (hsts : ∀ st ∈ sts, st.Typed) :
    badLiterals names sts = [] ↔ ∀ t ∈ sts.flatMap Statement.values, t.terminal = .string →
      ∃ bytes, Literal.decode names t.text = .ok bytes := by
  rw [badLiterals_eq_nil, List.forall_mem_flatMap]
  refine forall₂_congr fun st hst => ?_
  have htyped := hsts st hst
  cases st with
  | string name literal =>
    rcases hdecode : Literal.decode names literal.text with e | bytes <;>
      simp [badLiterals, Statement.values, hdecode, htyped.2.terminal]
  | constant name value => simp [badLiterals, Statement.values, htyped.2.terminal]
  | numbers name type values =>
    refine iff_of_true rfl fun t ht hk => ?_
    rw [(htyped.2.2.2 t ht).terminal] at hk
    cases hk
  | instruction behind mnemonic arguments =>
    refine iff_of_true rfl fun t ht hk => ?_
    obtain ⟨a, ha, ht⟩ := List.mem_flatMap.mp ht
    rw [((htyped.2.2 a ha).numbers t ht).terminal] at hk
    cases hk
  | _ => simp [badLiterals, Statement.values]

/-- The numbers and strings of a derivation are those of its statements. -/
theorem values_of_derives {words : List Token} {parts : List Part}
    (h : source.Derives words parts) : words.flatMap Token.value? =
      (parts.flatMap Part.statements).flatMap Statement.values := by
  have hrest : (rest .start).Derives words (parts.flatMap Part.statements) := by
    rw [rest_start]
    exact Phrase.derives_map.mpr ⟨parts, h, rfl⟩
  exact values_of_rest follows_start.proper hrest

theorem mem_values_of_derives {words : List Token} {parts : List Part}
    (h : source.Derives words parts) {t : Token} :
    t ∈ (parts.flatMap Part.statements).flatMap Statement.values ↔
      t ∈ words ∧ (t.terminal = .number ∨ t.terminal = .string) := by
  rw [← values_of_derives h, List.mem_flatMap]
  constructor
  · rintro ⟨u, hu, ht⟩
    unfold Token.value? at ht
    split_ifs at ht with hk
    · rw [List.mem_singleton.mp ht]
      exact ⟨hu, hk⟩
    · cases ht
  · rintro ⟨ht, hk⟩
    exact ⟨t, ht, by simp [Token.value?, hk]⟩

/-- The text derives from the grammar and has a number that is too long to be read. -/
def HasLongNumber (text : String) : Prop :=
  ∃ words, SplitsInto text words ∧ Derivable words ∧
    ∃ t ∈ words, t.terminal = .number ∧ ¬ Numeral.Short t.text.toList

/-- **A text is refused for a number that is too long** exactly if it derives from the grammar and
has one. -/
theorem parse_eq_overlong_iff (text : String) (file : Option String) :
    parse names text file = .error .overlong ↔ HasLongNumber text := by
  rcases hread : readStatements text with e | sts
  · -- A text that does not derive is refused for its first fault.
    refine iff_of_false (by simp [parse, hread]) ?_
    rintro ⟨words, hwords, ⟨parts, hparts⟩, -⟩
    rw [readStatements_eq_ok.mpr ⟨words, parts, hwords, hparts, rfl⟩] at hread
    cases hread
  · obtain ⟨words, parts, hwords, hparts, rfl⟩ := readStatements_eq_ok.mp hread
    have hitems : (∃ items, itemsOf names (parts.flatMap Part.statements) = .ok items) ↔
        ∀ t ∈ words, t.terminal = .number → Numeral.Short t.text.toList := by
      rw [itemsOf_isOk_iff (readStatements_typed hread)]
      simp only [mem_values_of_derives hparts]
      constructor
      · intro h t ht hk
        exact (Token.isRead_iff (hk ▸ hwords.mem_language t ht)).mp (h t ⟨ht, .inl hk⟩ hk)
      · rintro h t ⟨ht, -⟩ hk
        exact (Token.isRead_iff (hk ▸ hwords.mem_language t ht)).mpr (h t ht hk)
    have hrefused : parse names text file = .error .overlong ↔
        ¬ ∃ items, itemsOf names (parts.flatMap Part.statements) = .ok items := by
      rcases hok : itemsOf names (parts.flatMap Part.statements) with e | items
      · simp [parse, hread, hok]
      · rcases hbad : badLiterals names (parts.flatMap Part.statements) with _ | ⟨b, bs⟩ <;>
          simp [parse, hread, hok, hbad]
    rw [hrefused, hitems]
    push Not
    constructor
    · rintro ⟨t, ht, hk, hlong⟩
      exact ⟨words, hwords, ⟨parts, hparts⟩, t, ht, hk, hlong⟩
    · rintro ⟨words', hwords', -, t, ht, hk, hlong⟩
      rw [hwords'.unique follows_start hwords] at ht
      exact ⟨t, ht, hk, hlong⟩

/-- **A program is what a derivation of its text denotes.** -/
theorem denote_of_parse {text : String} {file : Option String} {p : Program}
    (h : parse names text file = .ok p) : ∃ words parts, SplitsInto text words ∧
      source.Derives words parts ∧ Denote names parts p.items := by
  obtain ⟨sts, hread, hitems, hliterals, -⟩ := parse_eq_ok.mp h
  have htyped := readStatements_typed hread
  obtain ⟨words, parts, hwords, hparts, rfl⟩ := readStatements_eq_ok.mp hread
  have hvalued : ∀ t ∈ words, t.Valued names := by
    intro t ht
    have hlanguage := hwords.mem_language t ht
    refine Token.Readable.valued ⟨fun hk => ?_, fun hk => ?_⟩ hlanguage
    · have hmem := (mem_values_of_derives hparts).mpr ⟨ht, .inl hk⟩
      exact (Token.isRead_iff (hk ▸ hlanguage)).mp
        ((itemsOf_isOk_iff htyped).mp ⟨_, hitems⟩ t hmem hk)
    · have hmem := (mem_values_of_derives hparts).mpr ⟨ht, .inr hk⟩
      exact (badLiterals_eq_nil_iff htyped).mp hliterals t hmem hk
  obtain ⟨items, hdenote⟩ := gives_source words parts hparts hvalued
  rw [hdenote.itemsOf_eq] at hitems
  cases hitems
  exact ⟨words, parts, hwords, hparts, hdenote⟩

end AluVM.Syntax
