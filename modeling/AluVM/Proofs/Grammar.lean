import AluVM.Proofs.Phrases
import AluVM.Syntax.State

/-! # The grammar of sources

The rules of the assembly language as phrases, from operands up to a whole source, which says its
sections with their statements (`Grammar.source`).

The reader has no stack: its state is a section and a line that has been read in part. What can
still follow is a phrase again, for a line (`completing`) and for the whole state (`rest`). A word
is then a step on both sides: the reader steps with a word exactly if the phrase of its state can
start with it, and the next state has the phrase that is left (`rest_cons`). -/

namespace AluVM.Syntax

open Phrase

/-! ### Rules -/

namespace Grammar

/-- Ends of lines. -/
def breaks : Phrase (List Token) := plus (word .newline)

/-- A number. -/
def number : Phrase Token := word .number

/-- Phrases with commas between them. -/
def commaList {α : Type} (p : Phrase α) : Phrase (List α) :=
  List.cons <$> p <*> star (word .comma *> p)

/-- A declaration of an extension. -/
def extension : Phrase Statement := .extension <$> word .name

/-- A declaration of a library, which may have an id. -/
def library : Phrase Statement :=
  .library <$> word .name <*> optional (word .equals *> word .libraryId)

/-- A declaration of a constant. -/
def constant : Phrase Statement := .constant <$> word .name <* word .equals <*> number

/-- A declaration of data. -/
def data : Phrase Statement :=
  .string <$> word .name <* word .equals <*> word .string <|>
    .numbers <$> word .name <* word .equals <*> word .name <*> commaList number

/-- A register: a set and an index. -/
def register : Phrase Argument :=
  .indexed <$> word .name <* word .leftBracket <*> number <* word .rightBracket

/-- A routine of a library. -/
def member : Phrase Argument := .member <$> word .name <* word .dot <*> word .name

/-- An operand. -/
def operand : Phrase Argument :=
  register <|> .number <$> number <|> member <|> .name <$> word .name

/-- A mnemonic and its operands, which may be none. -/
def instruction : Phrase (Token × List Argument) :=
  Prod.mk <$> word .name <*> (fun as => as.getD []) <$> optional (commaList operand)

/-- A label. -/
def label : Phrase Token := word .name <* word .colon

/-- A line of a routine. -/
def code : Phrase Statement :=
  .label <$> label <|> (fun i => .instruction none i.1 i.2) <$> instruction <|>
    (fun l i => .instruction (some l) i.1 i.2) <$> label <*> instruction

/-- A line of a section. -/
def line : Section → Phrase Statement
  | .isae => extension
  | .libs => library
  | .const => constant
  | .data => data
  | .main | .routine => code

/-- The lines of a section, below its keyword. -/
def lines (k : Section) : Phrase (List Statement) := breaks *> star (line k <* breaks)

end Grammar

/-- A section as words: the line that starts a routine, and the lines below. -/
structure Part where
  opening : Option Statement
  lines : List Statement

/-- All statements of a section. -/
def Part.statements (p : Part) : List Statement := p.opening.toList ++ p.lines

namespace Grammar

/-- A section. -/
def part (k : Section) : Phrase Part :=
  match k with
  | .main => (fun t ls => ⟨some (.main t), ls⟩) <$> word (.keyword .main) <*> lines .main
  | .routine =>
    (fun t ls => ⟨some (.routine t), ls⟩) <$> (word (.keyword .routine) *> word .name) <*>
      lines .routine
  | k => (fun ls => ⟨none, ls⟩) <$> (word (.keyword k) *> lines k)

/-- Any section. -/
def anyPart : Phrase Part :=
  part .isae <|> part .libs <|> part .const <|> part .data <|> part .main <|> part .routine

/-- **A source.** -/
def source : Phrase (List Part) := star (word .newline) *> star anyPart

end Grammar

/-! ### What completes a line -/

/-- One more operand. -/
def Head.add (head : Head) (a : Argument) : Head := { head with done := a :: head.done }

namespace Grammar

/-- What completes an instruction behind a complete operand. -/
def more (head : Head) : Phrase Statement :=
  (fun as => .instruction head.label head.mnemonic (head.done.reverse ++ as)) <$>
    star (word .comma *> operand)

/-- What completes an instruction behind its mnemonic. -/
def arguments (label : Option Token) (mnemonic : Token) : Phrase Statement :=
  (fun as => .instruction label mnemonic (as.getD [])) <$> optional (commaList operand)

/-- **What completes a line** to a statement. -/
def completing : Line → Phrase Statement
  | .first | .blank | .heading => failure
  | .routine => .routine <$> word .name
  | .complete s => pure s
  | .library name => .library name <$> optional (word .equals *> word .libraryId)
  | .libraryEquals name => (fun id => .library name (some id)) <$> word .libraryId
  | .constant name => .constant name <$> (word .equals *> number)
  | .constantEquals name => .constant name <$> number
  | .constantValue name value => pure (.constant name value)
  | .data name => word .equals *> (.string name <$> word .string) <|>
      word .equals *> (.numbers name <$> word .name <*> commaList number)
  | .dataEquals name => .string name <$> word .string <|>
      .numbers name <$> word .name <*> commaList number
  | .dataMore name type done =>
    (fun vs => .numbers name type (done.reverse ++ vs)) <$> commaList number
  | .dataValue name type done =>
    (fun vs => .numbers name type (done.reverse ++ vs)) <$> star (word .comma *> number)
  | .word name => word .colon *> pure (.label name) <|> arguments none name <|>
      word .colon *> (word .name >>= fun m => arguments (some name) m)
  | .labelled name => pure (.label name) <|> (word .name >>= fun m => arguments (some name) m)
  | .mnemonic label name => arguments (some label) name
  | .operandName head name =>
    word .leftBracket *>
        (number >>= fun i => word .rightBracket *> more (head.add (.indexed name i)))
      <|> word .dot *> (word .name >>= fun r => more (head.add (.member name r)))
      <|> more (head.add (.name name))
  | .operandNumber head value => more (head.add (.number value))
  | .operandDone head => more head
  | .operandNext head => operand >>= fun a => more (head.add a)
  | .operandDot head library => word .name >>= fun r => more (head.add (.member library r))
  | .operandBracket head set =>
    number >>= fun i => word .rightBracket *> more (head.add (.indexed set i))
  | .operandIndex head set index => word .rightBracket *> more (head.add (.indexed set index))

theorem more_eq (head : Head) : more head =
    (pure (.instruction head.label head.mnemonic head.done.reverse) <|>
      word .comma *> (operand >>= fun a => more (head.add a))) := by
  unfold more
  rw [map_eq_pure_bind, star_bind]
  simp [Head.add, seqRight_eq_bind]

theorem arguments_eq (label : Option Token) (mnemonic : Token) : arguments label mnemonic =
    (operand >>= (fun a => more ⟨label, mnemonic, [a]⟩) <|>
      pure (.instruction label mnemonic [])) := by
  simp [arguments, optional, map_orElse, commaList, seq_eq_bind_map, more]

theorem after_operand_bind {β : Type} (f : Argument → Phrase β) (t : Token) :
    (operand >>= f).after t =
      if t.terminal = .name then
        (word .leftBracket *> (number >>= fun i => word .rightBracket *> f (.indexed t i)) <|>
          word .dot *> (word .name >>= fun r => f (.member t r)) <|> f (.name t))
      else if t.terminal = .number then f (.number t) else failure := by
  obtain ⟨k, text, pos⟩ := t
  simp only [operand, register, member, orElse_bind, number]
  cases k <;> simp [seqRight_eq_bind, seqLeft_eq_bind, seq_eq_bind_map]

theorem completing_after (part : Option Section) (line : Line) (t : Token) (h : line ≠ .blank) :
    (completing line).after t = ((⟨part, line⟩ : State).extend t).elim failure completing := by
  obtain ⟨k, text, pos⟩ := t
  cases line
  case blank => exact absurd rfl h
  case first | heading => rfl
  case dataMore name type done =>
    cases k <;>
      simp [completing, State.extend, seqRight_eq_bind, commaList, seq_eq_bind_map, number]
  case dataValue name type done =>
    simp only [completing]
    rw [star_eq]
    cases k <;> simp [completing, State.extend, seqRight_eq_bind, commaList, seq_eq_bind_map,
      number, map_orElse]
  case dataEquals name =>
    cases k <;> simp [completing, State.extend, commaList, seq_eq_bind_map]
  case operandName head name | operandNumber head value | operandDone head =>
    simp only [completing]
    rw [more_eq]
    cases k <;> simp [completing, State.extend, seqRight_eq_bind, Head.add]
  case operandNext head =>
    simp only [completing, after_operand_bind]
    cases k <;> simp [completing, State.extend, Head.add]
  case word name | labelled name | mnemonic label name =>
    simp only [completing, arguments_eq]
    cases k <;>
      simp [completing, State.extend, seqRight_eq_bind, Head.add, arguments_eq, after_operand_bind]
  all_goals
    cases k <;> simp [completing, State.extend, optional, seqRight_eq_bind, Head.add, number]

@[simp]
theorem nil_operand (a : Argument) : ¬ operand.Derives [] a := by
  simp [operand, register, member, number, seqLeft_eq_bind, seq_eq_bind_map]

@[simp]
theorem nil_commaList_number (vs : List Token) : ¬ (commaList number).Derives [] vs := by
  simp [commaList, number, seq_eq_bind_map]

/-- A line is complete where nothing need follow it. -/
theorem nil_completing (part : Option Section) (line : Line) (st : Statement) :
    (completing line).Derives [] st ↔ (⟨part, line⟩ : State).statement? = some st := by
  cases line
  case operandName head name | operandNumber head value | operandDone head =>
    simp only [completing]
    rw [more_eq]
    simp [State.statement?, Head.add, seqRight_eq_bind, eq_comm]
  case word name | labelled name | mnemonic label name =>
    simp [completing, arguments_eq, State.statement?, seqRight_eq_bind, eq_comm]
  case dataValue name type done =>
    simp [completing, State.statement?, seqRight_eq_bind, eq_comm, nil_star]
  case dataMore name type done => simp [completing, State.statement?]
  all_goals
    simp [completing, State.statement?, seqRight_eq_bind, seq_eq_bind_map, eq_comm, optional,
      number]

theorem after_line (k : Section) (t : Token) :
    (line k).after t = if t.terminal = .name then completing (State.begin k t) else failure := by
  obtain ⟨terminal, text, pos⟩ := t
  cases k <;> cases terminal <;>
    simp [line, extension, library, constant, data, code, label, instruction, completing, arguments,
      State.begin, seqRight_eq_bind, seqLeft_eq_bind, seq_eq_bind_map, number]

/-! ### What completes a source -/

/-- The statements of the sections that follow. -/
def sections : Phrase (List Statement) := (fun ps => ps.flatMap Part.statements) <$> star anyPart

/-- What may follow the end of a line. -/
def below : Option Section → Phrase (List Statement)
  | none => sections
  | some k => (· ++ ·) <$> star (line k <* breaks) <*> sections

/-- **What completes a source**, with the statements that follow. -/
def rest (s : State) : Phrase (List Statement) :=
  match s.line with
  | .first | .blank => star (word .newline) *> below s.part
  | .heading => breaks *> below s.part
  | line => completing line >>= fun st => breaks *> (st :: ·) <$> below s.part

theorem breaks_bind {β : Type} (q : Phrase β) :
    (breaks *> q) = word .newline *> (star (word .newline) *> q) := by
  simp [breaks, plus, seqRight_eq_bind, seq_eq_bind_map]

theorem after_breaks {β : Type} (q : Phrase β) (t : Token) : (breaks *> q).after t =
    if t.terminal = .newline then star (word .newline) *> q else failure := by
  rw [breaks_bind, seqRight_eq_bind, after_word_bind]

theorem sections_eq :
    sections = (pure [] <|> anyPart >>= fun p => (p.statements ++ ·) <$> sections) := by
  conv_lhs => rw [sections, star_eq]
  simp [map_orElse, sections]

theorem below_some (k : Section) : below (some k) =
    (sections <|> line k >>= fun st => breaks *> (st :: ·) <$> below (some k)) := by
  conv_lhs => rw [below, seq_eq_bind_map, bind_map_left, star_bind]
  simp [below, seqRight_eq_bind, seqLeft_eq_bind, seq_eq_bind_map]

theorem after_part (k : Section) (t : Token) :
    (part k >>= fun p => (p.statements ++ ·) <$> sections).after t =
      if t.terminal = .keyword k then rest (State.enter k t) else failure := by
  obtain ⟨terminal, text, pos⟩ := t
  cases k <;> simp [part, lines, seqRight_eq_bind, seqLeft_eq_bind, seq_eq_bind_map,
    Part.statements, rest, State.enter, below, completing]

section After
variable {t : Token}

theorem after_sections_keyword {k : Section} (h : t.terminal = .keyword k) :
    sections.after t = rest (State.enter k t) := by
  rw [sections_eq]
  simp only [anyPart, orElse_bind, after_orElse, after_part, after_pure, h]
  cases k <;> simp

theorem after_sections (h : ∀ k, t.terminal ≠ .keyword k) : sections.after t = failure := by
  rw [sections_eq]
  simp [anyPart, orElse_bind, after_part, h]

theorem nil_line (k : Section) (st : Statement) : ¬ (line k).Derives [] st := by
  cases k <;>
    simp [line, extension, library, constant, data, code, label, instruction, seqLeft_eq_bind,
      seq_eq_bind_map]

theorem rest_begin (k : Section) (t : Token) : rest ⟨some k, State.begin k t⟩ =
    completing (State.begin k t) >>= fun st => breaks *> (st :: ·) <$> below (some k) := by
  cases k <;> rfl

/-- What follows the line of a section: a line of its own, or another section. -/
theorem after_below_some (k : Section) (t : Token) : (below (some k)).after t =
    (sections.after t <|>
      if t.terminal = .name then rest ⟨some k, State.begin k t⟩ else failure) := by
  rw [below_some, after_orElse, after_bind_of_not_nil (nil_line k), after_line, rest_begin]
  split_ifs
  · rfl
  · rw [failure_bind]

theorem after_star_newline {β : Type} (q : Phrase β) (t : Token) :
    (star (word .newline) *> q).after t =
      (q.after t <|> if t.terminal = .newline then star (word .newline) *> q else failure) := by
  conv_lhs => rw [seqRight_eq_bind, star_bind]
  simp [seqRight_eq_bind]

end After

theorem nil_sections (sts : List Statement) : sections.Derives [] sts ↔ sts = [] := by
  have hpart : ∀ p, ¬ anyPart.Derives [] p := by
    simp [anyPart, part, lines, seqRight_eq_bind, seq_eq_bind_map]
  simp [sections, nil_star hpart]

theorem nil_below (part : Option Section) (sts : List Statement) :
    (below part).Derives [] sts ↔ sts = [] := by
  rcases part with _ | k
  · exact nil_sections sts
  · rw [below_some]
    simp [nil_sections, nil_line]

/-- A source can end where the reader allows it. -/
theorem nil_rest (s : State) (sts : List Statement) :
    (rest s).Derives [] sts ↔ .endOfText ∈ s.allows ∧ sts = [] := by
  have hbreaks : ∀ q : Phrase (List Statement), ¬ (breaks *> q).Derives [] sts := by
    intro q
    rw [breaks_bind]
    simp [seqRight_eq_bind]
  have hstar : ∀ q : Phrase (List Statement),
      (star (word .newline) *> q).Derives [] sts ↔ q.Derives [] sts := by
    intro q
    simp [seqRight_eq_bind, nil_star]
  obtain ⟨part, line⟩ := s
  cases line
  case first => simp [rest, State.allows, hstar, nil_below]
  case blank =>
    simp only [rest, State.allows, hstar, nil_below]
    split_ifs <;> simp
  all_goals simp [rest, State.allows, Line.scans, hbreaks]

/-- The line has words of a statement. -/
def Begun : Line → Prop
  | .first | .blank | .heading => False
  | _ => True

theorem rest_of_begun {part : Option Section} {line : Line} (h : Begun line) : rest ⟨part, line⟩ =
    completing line >>= fun st => breaks *> (st :: ·) <$> below part := by
  cases line <;> first | rfl | exact h.elim

theorem begun_of_extend {s : State} {t : Token} {line : Line} (h : s.extend t = some line) :
    Begun line := by
  unfold State.extend at h
  split at h
  case h_1 =>
    obtain ⟨k, -, rfl⟩ := Option.map_eq_some_iff.mp h
    cases k <;> trivial
  all_goals cases h
  all_goals trivial

/-- The next state within a line, and at its end. -/
theorem step_of_begun {part : Option Section} {line : Line} (h : Begun line) (t : Token) :
    (⟨part, line⟩ : State).step t =
      if t.terminal = .newline then (⟨part, line⟩ : State).statement?.map fun _ => ⟨part, .blank⟩
      else ((⟨part, line⟩ : State).extend t).map fun line => ⟨part, line⟩ := by
  obtain ⟨k, text, pos⟩ := t
  cases line
  case first | blank | heading => exact h.elim
  all_goals cases k <;> simp [State.step, State.allows, Line.scans, State.extend, State.statement?]

theorem extend_newline {s : State} {t : Token} (h : t.terminal = .newline) : s.extend t = none := by
  obtain ⟨part, line⟩ := s
  cases line <;> simp [State.extend, h]

theorem after_rest_of_begun {part : Option Section} {line : Line} (h : Begun line) (t : Token) :
    (rest ⟨part, line⟩).after t = ((⟨part, line⟩ : State).step t).elim failure fun next =>
      ((if t.terminal = .newline then (⟨part, line⟩ : State).statement?.toList else []) ++ ·) <$>
        rest next := by
  have hblank : line ≠ .blank := by
    rintro rfl
    exact h
  rw [rest_of_begun h, after_bind (nil_completing part line), completing_after part line t hblank,
    step_of_begun h]
  simp only [after_breaks]
  -- A word goes on with the line, or it is the end of a line that is complete.
  by_cases ht : t.terminal = .newline
  · rw [extend_newline ht]
    rcases (⟨part, line⟩ : State).statement? with _ | st
    · simp [ht]
    · simp [ht, rest, seqRight_eq_bind]
  · have hend : ((⟨part, line⟩ : State).statement?.elim failure
        fun _ => (failure : Phrase (List Statement))) = failure := by
      rcases (⟨part, line⟩ : State).statement? with _ | st <;> rfl
    simp only [if_neg ht, hend, orElse_failure]
    rcases hline : (⟨part, line⟩ : State).extend t with _ | line'
    · simp
    · simp [rest_of_begun (begun_of_extend hline)]

/-- What follows at the start of a line, and the state there. -/
theorem after_rest_blank (part : Option Section) (t : Token) :
    (rest ⟨part, .blank⟩).after t = ((⟨part, .blank⟩ : State).step t).elim failure rest := by
  have hrest : rest ⟨part, .blank⟩ = star (word .newline) *> below part := rfl
  have hbelow : (below part).after t = (sections.after t <|> if t.terminal = .name then
      part.elim failure fun k => rest ⟨some k, State.begin k t⟩ else failure) := by
    rcases part with _ | k
    · simp [below]
    · exact after_below_some k t
  rw [hrest, after_star_newline, hbelow]
  obtain ⟨terminal, text, pos⟩ := t
  cases terminal
  case keyword k =>
    rw [after_sections_keyword rfl]
    have hmem : Terminal.keyword k ∈ (⟨part, .blank⟩ : State).allows := by
      rcases part with _ | part <;> cases k <;> simp [State.allows, Terminal.keywords, Section.all]
    simp [State.step, hmem]
  all_goals
    rw [after_sections (by simp)]
    rcases part with _ | k <;>
      simp [State.step, State.allows, State.extend, Terminal.keywords, Section.all, hrest]

/-- The state is one that the reader can be in. -/
def Proper (s : State) : Prop := s.line = .first → s.part = none

/-- **The reader takes the grammar apart word by word**: what may follow a word is what completes
the next state, and a line that ends adds its statement. -/
theorem after_rest {s : State} (hs : Proper s) (t : Token) :
    (rest s).after t = (s.step t).elim failure fun next =>
      ((if t.terminal = .newline then s.statement?.toList else []) ++ ·) <$> rest next := by
  obtain ⟨part, line⟩ := s
  cases line
  case first =>
    obtain rfl : part = none := hs rfl
    have hstep : (⟨none, .first⟩ : State).step t = (⟨none, .blank⟩ : State).step t := by
      obtain ⟨terminal, text, pos⟩ := t
      cases terminal <;> rfl
    have hrest : rest ⟨none, .first⟩ = rest ⟨none, .blank⟩ := rfl
    rw [hrest, hstep, after_rest_blank]
    simp [State.statement?]
  case blank =>
    rw [after_rest_blank]
    simp [State.statement?]
  case heading =>
    have hrest : rest ⟨part, .heading⟩ = breaks *> below part := rfl
    rw [hrest, after_breaks]
    by_cases ht : t.terminal = .newline
    · simp [State.step, State.allows, Line.scans, State.statement?, ht, rest]
    · simp [State.step, State.allows, Line.scans, ht]
  all_goals exact after_rest_of_begun (by trivial) t

/-! ### Derivations, word by word -/

theorem rest_start : rest State.start = (fun ps => ps.flatMap Part.statements) <$> source := by
  simp [rest, State.start, below, sections, source, seqRight_eq_bind]

theorem Proper.step {s next : State} {t : Token} (h : s.step t = some next) : Proper next := by
  intro hfirst
  unfold State.step at h
  split_ifs at h
  split at h
  case h_1 k _ =>
    cases h
    cases k <;> cases hfirst
  case h_2 =>
    cases h
    cases hfirst
  case h_3 =>
    obtain ⟨line, hline, rfl⟩ := Option.map_eq_some_iff.mp h
    have hbegun := begun_of_extend hline
    rw [show line = .first from hfirst] at hbegun
    exact hbegun.elim

/-- A source goes on with a word if the reader can step. -/
theorem rest_cons {s : State} (hs : Proper s) {t : Token} {ts : List Token} {sts : List Statement} :
    (rest s).Derives (t :: ts) sts ↔ ∃ next sts', s.step t = some next ∧
      (rest next).Derives ts sts' ∧
        sts = (if t.terminal = .newline then s.statement?.toList else []) ++ sts' := by
  change ((rest s).after t).Derives ts sts ↔ _
  rw [after_rest hs]
  rcases s.step t with _ | next
  · exact ⟨False.elim, by simp⟩
  · simp [derives_map]

/-- Every line can be completed. -/
theorem productive_completing {line : Line} (h : Begun line) : (completing line).Productive := by
  have hmore : ∀ head, (more head).Productive := fun head => (productive_star _).map _
  have hnumbers : (commaList number).Productive := by
    rw [commaList, seq_eq_bind_map, bind_map_left]
    exact (productive_word _).bind fun v => (productive_star _).map _
  have hoperand : operand.Productive := by
    obtain ⟨ts, t, ht⟩ := productive_word .number
    exact ⟨ts, .number t, .inr (.inl (derives_map.mpr ⟨t, ht, rfl⟩))⟩
  rcases hst : (⟨none, line⟩ : State).statement? with _ | st
  · cases line
    case first | blank | heading => exact h.elim
    case routine | libraryEquals | constantEquals => exact (productive_word _).map _
    case constant name => exact ((productive_word _).seqRight (productive_word _)).map _
    case data name => exact ((productive_word _).seqRight ((productive_word _).map _)).orElse _
    case dataEquals name => exact ((productive_word _).map _).orElse _
    case dataMore name type done => exact hnumbers.map _
    case operandNext head => exact hoperand.bind fun a => hmore _
    case operandDot head library => exact (productive_word _).bind fun r => hmore _
    case operandBracket head set =>
      exact (productive_word _).bind fun i => (productive_word _).seqRight (hmore _)
    case operandIndex head set index => exact (productive_word _).seqRight (hmore _)
    all_goals cases hst
  · exact ⟨[], st, (nil_completing none line st).mpr hst⟩

/-- **Every state can be completed to a source.** -/
theorem productive_rest (s : State) : (rest s).Productive := by
  obtain ⟨part, line⟩ := s
  have hbelow : (below part).Productive := ⟨[], [], (nil_below part []).mpr rfl⟩
  have hbreaks : ∀ {q : Phrase (List Statement)}, q.Productive → (breaks *> q).Productive := by
    intro q hq
    rw [breaks_bind]
    exact (productive_word _).seqRight ((productive_star _).seqRight hq)
  cases line
  case first | blank => exact (productive_star _).seqRight hbelow
  case heading => exact hbreaks hbelow
  all_goals
    rw [rest_of_begun (by trivial)]
    exact (productive_completing (by trivial)).bind fun st => hbreaks (hbelow.map _)

end Grammar

end AluVM.Syntax
