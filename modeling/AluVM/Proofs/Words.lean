import AluVM.Syntax.Source
import AluVM.Proofs.Steps
import Mathlib.Data.List.TakeDrop
import Mathlib.Data.List.TakeWhile

/-! # The words of a program

A state of the reader holds words of the classes that its statement needs (`Line.Typed`): every
step keeps this (`step_typed`), so the statements of a text are built from words of the right
classes, and a list of numbers is never empty (`readStatements_typed`). What a program takes over
from them:

* `IsName`: the text of a name has letters, digits and underscores only, so it holds neither a dot
  nor an at sign.
* `IsNumber`: the text of a number. After a mark such as `0x` it has digits and underscores only.
* `Program.Written`: the names of a program are names in this sense, its operands are as a source
  writes them, and a declaration of data has either one string or numbers.
* `parse_written`: every program that a text denotes is of this form. -/

namespace AluVM.Syntax

variable {names : CharacterNames}

/-! ### Words of a class -/

/-- The token is a word of class `k`. -/
structure Token.Is (k : Terminal) (t : Token) : Prop where
  terminal : t.terminal = k
  lexeme : ∃ cs rest, k.match? cs = some (t.text.toList, rest)

/-- The words of an operand are of the right classes. -/
def Argument.Typed : Argument → Prop
  | number value => value.Is .number
  | name word => word.Is .name
  | member library routine => library.Is .name ∧ routine.Is .name
  | indexed set index => set.Is .name ∧ index.Is .number

/-- The words of a statement are of the right classes, and a declaration of numbers has one at
least. -/
def Statement.Typed : Statement → Prop
  | main _ => True
  | routine name => name.Is .name
  | extension name => name.Is .name
  | library name id => name.Is .name ∧ ∀ t ∈ id, t.Is .libraryId
  | constant name value => name.Is .name ∧ value.Is .number
  | string name literal => name.Is .name ∧ literal.Is .string
  | numbers name type values =>
    name.Is .name ∧ type.Is .name ∧ values ≠ [] ∧ ∀ v ∈ values, v.Is .number
  | label name => name.Is .name
  | instruction behind mnemonic arguments =>
    (∀ l ∈ behind, l.Is .name) ∧ mnemonic.Is .name ∧ ∀ a ∈ arguments, a.Typed

/-- The words of an instruction under way are of the right classes. -/
structure Head.Typed (h : Head) : Prop where
  label : ∀ l ∈ h.label, l.Is .name
  mnemonic : h.mnemonic.Is .name
  done : ∀ a ∈ h.done, a.Typed

/-- The words of a line are of the right classes, and if it can end here, its statement lacks
nothing. -/
def Line.Typed : Line → Prop
  | first | blank | heading | routine => True
  | complete s => s.Typed
  | library name | libraryEquals name => name.Is .name
  | constant name | constantEquals name => name.Is .name
  | constantValue name value => name.Is .name ∧ value.Is .number
  | data name | dataEquals name => name.Is .name
  | dataMore name type done => name.Is .name ∧ type.Is .name ∧ ∀ v ∈ done, v.Is .number
  | dataValue name type done =>
    name.Is .name ∧ type.Is .name ∧ done ≠ [] ∧ ∀ v ∈ done, v.Is .number
  | word name | labelled name => name.Is .name
  | mnemonic label name => label.Is .name ∧ name.Is .name
  | operandName head name => head.Typed ∧ name.Is .name
  | operandNumber head value => head.Typed ∧ value.Is .number
  | operandDone head | operandNext head => head.Typed
  | operandDot head owner => head.Typed ∧ owner.Is .name
  | operandBracket head set => head.Typed ∧ set.Is .name
  | operandIndex head set index => head.Typed ∧ set.Is .name ∧ index.Is .number

theorem Head.Typed.add {h : Head} (hh : h.Typed) {a : Argument} (ha : a.Typed) :
    Head.Typed { h with done := a :: h.done } :=
  ⟨hh.label, hh.mnemonic, by simpa using ⟨ha, hh.done⟩⟩

theorem Head.typed_start {label : Option Token} {mnemonic : Token} (hl : ∀ l ∈ label, l.Is .name)
    (hm : mnemonic.Is .name) : Head.Typed ⟨label, mnemonic, []⟩ :=
  ⟨hl, hm, by simp⟩

theorem begin_typed {s : Section} {name : Token} (h : name.Is .name) :
    (State.begin s name).Typed := by
  cases s <;> exact h

/-- A line stays typed when a word is added; one case for each rule of the grammar. -/
theorem extend_typed {s : State} {t : Token} {line : Line} (hs : s.line.Typed)
    (ht : t.Is t.terminal) (h : s.extend t = some line) : line.Typed := by
  obtain ⟨part, old⟩ := s
  obtain ⟨k, text, pos⟩ := t
  simp only [State.extend] at h hs ht
  split at h
  case h_1 =>
    obtain ⟨k, -, rfl⟩ := Option.map_eq_some_iff.mp h
    exact begin_typed ht
  all_goals cases h
  all_goals simp only [Line.Typed, Statement.Typed, Option.mem_some] at hs ⊢
  all_goals grind [Head.Typed.add, Head.typed_start, Argument.Typed]

theorem step_typed {s s' : State} {t : Token} (hs : s.line.Typed) (ht : t.Is t.terminal)
    (h : s.step t = some s') : s'.line.Typed := by
  unfold State.step at h
  split_ifs at h
  split at h
  case h_1 k _ =>
    cases h
    cases k <;> trivial
  case h_2 =>
    cases h
    trivial
  case h_3 =>
    obtain ⟨line, hline, rfl⟩ := Option.map_eq_some_iff.mp h
    exact extend_typed hs ht hline

theorem statement?_typed {s : State} {st : Statement} (hs : s.line.Typed)
    (h : s.statement? = some st) : st.Typed := by
  obtain ⟨part, line⟩ := s
  simp only [State.statement?] at h hs
  split at h
  all_goals cases h
  all_goals simp only [Line.Typed] at hs
  case h_1 => exact hs
  case h_2 => exact ⟨hs, by simp⟩
  case h_3 => exact hs
  case h_4 => exact ⟨hs.1, hs.2.1, by simpa using hs.2.2.1, by simpa using hs.2.2.2⟩
  case h_5 => exact ⟨by simp, hs, by simp⟩
  case h_6 => exact hs
  case h_7 => exact ⟨by simpa using hs.1, hs.2, by simp⟩
  case h_8 | h_9 =>
    refine ⟨hs.1.label, hs.1.mnemonic, ?_⟩
    simpa [or_imp, forall_and] using ⟨hs.1.done, hs.2⟩
  case h_10 => exact ⟨hs.label, hs.mnemonic, by simpa using hs.done⟩

/-! ### Texts -/

theorem scanWord_is {classes : List Terminal} {cs lexeme rest : List Char} {k : Terminal}
    {pos : Position} (h : scanWord classes cs = some (k, lexeme, rest)) :
    Token.Is k ⟨k, String.ofList lexeme, pos⟩ := by
  obtain ⟨k', -, hk⟩ := List.exists_of_findSome?_eq_some h
  obtain ⟨m, hm, heq⟩ := Option.map_eq_some_iff.mp hk
  cases heq
  exact ⟨rfl, cs, rest, by simpa using hm⟩

/-- What the reader has gathered is typed at every step. -/
theorem readFrom_typed : ∀ (fuel : ℕ) (s : State) (pos : Position) (done : List Statement)
    (text : List Char) (result : List Statement), s.line.Typed → (∀ st ∈ done, st.Typed) →
      readFrom fuel s pos done text = .ok result → ∀ st ∈ result, st.Typed
  | 0, _, _, done, _, result, _, hdone, h => by
    cases h
    simpa using hdone
  | fuel + 1, s, pos, done, text, result, hs, hdone, h => by
    simp only [readFrom] at h
    split at h
    · split_ifs at h
      cases h
      simpa using hdone
    · split at h
      · cases h
      · rename_i k lexeme rest hscan
        split at h
        · cases h
        · rename_i next hnext
          have hk : ∀ p, Token.Is k ⟨k, String.ofList lexeme, p⟩ := fun p => scanWord_is hscan
          refine readFrom_typed fuel next _ _ rest result (step_typed hs (hk _) hnext) ?_ h
          intro st hst
          rcases List.mem_append.mp hst with hst | hst
          · split_ifs at hst
            · exact statement?_typed hs (Option.mem_toList.mp hst)
            · simp at hst
          · exact hdone st hst

theorem readStatements_typed {text : String} {sts : List Statement}
    (h : readStatements text = .ok sts) : ∀ st ∈ sts, st.Typed :=
  readFrom_typed _ .start _ [] _ sts trivial (by simp) h

/-! ### Programs -/

/-- The text is a name: a letter or an underscore, then letters, digits and underscores. -/
def IsName (s : String) : Prop :=
  ∃ c cs, s.toList = c :: cs ∧ startsName c = true ∧ ∀ d ∈ cs, continuesName d = true

theorem continuesName_of_startsName {c : Char} (h : startsName c = true) :
    continuesName c = true := by
  simp only [startsName, continuesName, Char.isAlphanum, Bool.or_eq_true] at h ⊢
  tauto

theorem IsName.all {s : String} (h : IsName s) : ∀ c ∈ s.toList, continuesName c = true := by
  obtain ⟨c, cs, hs, hc, hcs⟩ := h
  rw [hs]
  intro d hd
  rcases List.mem_cons.mp hd with rfl | hd
  · exact continuesName_of_startsName hc
  · exact hcs d hd

theorem IsName.not_dot {s : String} (h : IsName s) : '.' ∉ s.toList := fun hd =>
  absurd (h.all _ hd) (by decide)

theorem IsName.not_at {s : String} (h : IsName s) : '@' ∉ s.toList := fun hd =>
  absurd (h.all _ hd) (by decide)

theorem Token.Is.isName {t : Token} (h : t.Is .name) : IsName t.text := by
  obtain ⟨cs, rest, hm⟩ := h.lexeme
  rcases cs with _ | ⟨c, cs⟩
  · cases hm
  · simp only [Terminal.match?, matchName] at hm
    split_ifs at hm with hc
    have hspan : (c :: cs).takeWhile continuesName = t.text.toList := by
      have := congrArg Prod.fst (Option.some.inj hm)
      rwa [List.span_eq_takeWhile_dropWhile] at this
    rw [List.takeWhile_cons_of_pos (continuesName_of_startsName hc)] at hspan
    exact ⟨c, _, hspan.symm, hc, fun d hd => List.mem_takeWhile_imp hd⟩

/-- The text is a number. -/
def IsNumber (s : String) : Prop := ∃ cs rest, matchNumber cs = some (s.toList, rest)

theorem Token.Is.isNumber {t : Token} {i : Immediate} (h : t.Is .number)
    (hi : t.immediate = .ok i) : IsNumber i.text := by
  obtain ⟨value, -, hi⟩ := Steps.bind_eq_ok.mp hi
  cases hi
  exact h.lexeme

/-- Digits, the first character being one, with underscores between them. -/
def DigitRun (isDigit : Char → Bool) (run : List Char) : Prop :=
  ∃ d ds, run = d :: ds ∧ isDigit d = true ∧ ∀ c ∈ ds, isDigit c = true ∨ c = '_'

/-- What a number is after its sign. -/
inductive Unsigned : List Char → Prop where
  | hexadecimal {mark : Char} {run : List Char} (marked : mark = 'x' ∨ mark = 'X')
      (digits : DigitRun isHexDigit run) : Unsigned ('0' :: mark :: run)
  | binary {mark : Char} {run : List Char} (marked : mark = 'b' ∨ mark = 'B')
      (digits : DigitRun isBinaryDigit run) : Unsigned ('0' :: mark :: run)
  | octal {mark : Char} {run : List Char} (marked : mark = 'o' ∨ mark = 'O')
      (digits : DigitRun isOctalDigit run) : Unsigned ('0' :: mark :: run)
  | decimal {run : List Char} (digits : DigitRun Char.isDigit run) : Unsigned run

theorem digitRun_eq (isDigit : Char → Bool) (done cs : List Char) : ∃ run,
    (digitRun isDigit done cs).1 = done.reverse ++ run ∧ ∀ c ∈ run, isDigit c = true ∨ c = '_' := by
  fun_induction digitRun isDigit done cs with
  | case2 done c cs hc ih =>
    obtain ⟨run, hrun, hall⟩ := ih
    exact ⟨c :: run, by simp [hrun], by simpa [hc] using hall⟩
  | case3 done d ds hd _ ih =>
    obtain ⟨run, hrun, hall⟩ := ih
    exact ⟨'_' :: d :: run, by simp [hrun], by simpa [hd] using hall⟩
  | _ => exact ⟨[], by simp, by simp⟩

theorem matchDigits_eq_some {isDigit : Char → Bool} {mark cs lexeme rest : List Char}
    (h : matchDigits isDigit mark cs = some (lexeme, rest)) :
    ∃ run, lexeme = mark.reverse ++ run ∧ DigitRun isDigit run := by
  unfold matchDigits at h
  split at h
  · rename_i c ds
    split_ifs at h with hc
    rw [digitRun.eq_def] at h
    simp only [hc, if_true] at h
    obtain ⟨run, hrun, hall⟩ := digitRun_eq isDigit (c :: mark) ds
    refine ⟨c :: run, ?_, c, run, rfl, hc, hall⟩
    rw [Option.some.inj h] at hrun
    simpa using hrun
  · cases h

theorem matchUnsigned_eq_some {sign cs lexeme rest : List Char}
    (h : matchUnsigned sign cs = some (lexeme, rest)) :
    ∃ body, lexeme = sign.reverse ++ body ∧ Unsigned body := by
  have hmarked : ∀ {isDigit : Char → Bool} {mark : Char} {ds : List Char},
      matchDigits isDigit (mark :: '0' :: sign) ds = some (lexeme, rest) → ∃ run,
        lexeme = sign.reverse ++ '0' :: mark :: run ∧ DigitRun isDigit run := by
    intro isDigit mark ds h
    obtain ⟨run, hrun, hdigits⟩ := matchDigits_eq_some h
    exact ⟨run, by simp [hrun], hdigits⟩
  simp only [matchUnsigned, Option.orElse_eq_or, Option.or_eq_some_iff] at h
  rcases h with h | ⟨-, h⟩
  · split at h
    · simp only [Bool.or_eq_true, decide_eq_true_eq] at h
      split_ifs at h with hx hb ho
      · obtain ⟨run, hrun, hdigits⟩ := hmarked h
        exact ⟨_, hrun, .hexadecimal hx hdigits⟩
      · obtain ⟨run, hrun, hdigits⟩ := hmarked h
        exact ⟨_, hrun, .binary hb hdigits⟩
      · obtain ⟨run, hrun, hdigits⟩ := hmarked h
        exact ⟨_, hrun, .octal ho hdigits⟩
    · cases h
  · obtain ⟨run, hrun, hdigits⟩ := matchDigits_eq_some h
    exact ⟨run, hrun, .decimal hdigits⟩

/-- **The parts of a number**: an optional sign, and the rest. -/
theorem IsNumber.parts {s : String} (h : IsNumber s) : ∃ sign body,
    s.toList = sign ++ body ∧ (sign = [] ∨ sign = ['+'] ∨ sign = ['-']) ∧ Unsigned body := by
  obtain ⟨cs, rest, h⟩ := h
  unfold matchNumber at h
  split at h
  · rename_i c ds
    simp only [Bool.or_eq_true, decide_eq_true_eq] at h
    split_ifs at h with hsign <;> obtain ⟨body, hbody, hunsigned⟩ := matchUnsigned_eq_some h
    · exact ⟨[c], body, hbody, by simpa using hsign, hunsigned⟩
    · exact ⟨[], body, hbody, Or.inl rfl, hunsigned⟩
  · cases h

/-- The operand is one that a source writes. -/
def Operand.Written : Operand → Prop
  | register _ _ => True
  | immediate _ => True
  | symbol name => IsName name
  | call library routine => IsName library ∧ IsName routine
  | label _ | datum _ | raw _ => False

/-- The node is one that a source writes. -/
def Node.Written : Node → Prop
  | label name _ => IsName name
  | instruction i => ∀ o ∈ i.operands, o.Written

/-- The values of a declaration of data: one string, or numbers. -/
def DataDecl.Plain (d : DataDecl) : Prop :=
  (d.type = stringType ∧ ∃ bytes, d.values = [.raw bytes]) ∨
    ∃ numbers : List Immediate, d.values = numbers.map .immediate ∧ ∀ i ∈ numbers, IsNumber i.text

/-- The item is one that a source writes. -/
def Item.Written : Item → Prop
  | extension d => IsName d.name
  | library d => IsName d.name
  | constant d => IsName d.name
  | data d => IsName d.name ∧ d.Plain
  | routine r => (∀ n ∈ r.name, IsName n) ∧ ∀ node ∈ r.body, node.Written

/-- The program is one that a source writes. -/
def Program.Written (p : Program) : Prop := ∀ item ∈ p.items, item.Written

theorem operand_written {a : Argument} {o : Operand} (ha : a.Typed) (h : a.operand = .ok o) :
    o.Written := by
  cases a with
  | number value =>
    obtain ⟨i, -, rfl⟩ := Steps.map_eq_ok.mp h
    trivial
  | name word => cases h; exact ha.isName
  | member library routine => cases h; exact ⟨ha.1.isName, ha.2.isName⟩
  | indexed set index =>
    obtain ⟨i, -, h⟩ := Steps.bind_eq_ok.mp h
    cases h
    trivial

theorem nodes_written {st : Statement} {ns : List Node} (hst : st.Typed) (h : st.nodes = .ok ns) :
    ∀ n ∈ ns, n.Written := by
  cases st with
  | label name =>
    cases h
    simpa [Node.Written] using Token.Is.isName hst
  | instruction behind mnemonic arguments =>
    obtain ⟨operands, hops, h⟩ := Steps.bind_eq_ok.mp h
    cases h
    obtain ⟨hl, -, ha⟩ := hst
    intro n hn
    simp only [List.mem_append, List.mem_map, Option.mem_toList, List.mem_singleton] at hn
    rcases hn with ⟨l, hmem, rfl⟩ | rfl
    · exact (hl l hmem).isName
    · intro o ho
      obtain ⟨a, ha', hao⟩ := Steps.exists_mem_left (Steps.mapM_eq_ok.mp hops) o ho
      exact operand_written (ha a ha') hao
  | _ => cases h; simp

theorem item?_written {st : Statement} {item : Item} (hst : st.Typed)
    (h : st.item? names = .ok (some item)) : item.Written := by
  cases st with
  | main keyword => cases h; exact ⟨by simp, by simp⟩
  | routine name => cases h; exact ⟨by simpa using Token.Is.isName hst, by simp⟩
  | extension name => cases h; exact Token.Is.isName hst
  | library name id => cases h; exact hst.1.isName
  | constant name value =>
    obtain ⟨i, -, h⟩ := Steps.bind_eq_ok.mp h
    cases h
    exact hst.1.isName
  | string name literal => cases h; exact ⟨hst.1.isName, Or.inl ⟨rfl, _, rfl⟩⟩
  | numbers name type values =>
    obtain ⟨is, his, h⟩ := Steps.bind_eq_ok.mp h
    cases h
    refine ⟨hst.1.isName, Or.inr ⟨is, rfl, fun i hi => ?_⟩⟩
    obtain ⟨t, ht, hti⟩ := Steps.exists_mem_left (Steps.mapM_eq_ok.mp his) i hi
    exact (hst.2.2.2 t ht).isNumber hti
  | label name => cases h
  | instruction behind mnemonic arguments => cases h

theorem prepend_written {item : Item} {ns : List Node} (h : item.Written)
    (hns : ∀ n ∈ ns, n.Written) : (item.prepend ns).Written := by
  cases item with
  | routine r =>
    refine ⟨h.1, fun n hn => ?_⟩
    rcases List.mem_append.mp hn with hn | hn
    · exact hns n hn
    · exact h.2 n hn
  | _ => exact h

/-- The nodes and items of a tail are as a source writes them. -/
def WrittenTail (tail : Tail) : Prop :=
  (∀ n ∈ tail.1, n.Written) ∧ ∀ item ∈ tail.2, item.Written

/-- What holds of the nodes and items of a tail holds of them when a statement is added, if it holds
of what the statement adds. -/
theorem addStatement_forall {N : Node → Prop} {I : Item → Prop} {st : Statement}
    {tail tail' : Tail} (hnodes : ∀ ns, st.nodes = .ok ns → ∀ n ∈ ns, N n)
    (hitem : ∀ item, st.item? names = .ok (some item) → ∀ ns, (∀ n ∈ ns, N n) → I (item.prepend ns))
    (ht : (∀ n ∈ tail.1, N n) ∧ ∀ item ∈ tail.2, I item)
    (h : addStatement names st tail = .ok tail') :
    (∀ n ∈ tail'.1, N n) ∧ ∀ item ∈ tail'.2, I item := by
  obtain ⟨item?, hitem?, h⟩ := Steps.bind_eq_ok.mp h
  rcases item? with _ | item
  · obtain ⟨ns, hns, h⟩ := Steps.bind_eq_ok.mp h
    cases h
    exact ⟨List.forall_mem_append.mpr ⟨hnodes ns hns, ht.1⟩, ht.2⟩
  · cases h
    exact ⟨by simp, List.forall_mem_cons.mpr ⟨hitem item hitem? tail.1 ht.1, ht.2⟩⟩

theorem addStatement_written {st : Statement} {tail tail' : Tail} (hst : st.Typed)
    (ht : WrittenTail tail) (h : addStatement names st tail = .ok tail') : WrittenTail tail' :=
  addStatement_forall (fun _ => nodes_written hst)
    (fun _ hitem _ => prepend_written (item?_written hst hitem)) ht h

/-- What every statement keeps, all of them keep. -/
theorem addAll_induction {P : Tail → Prop} {sts : List Statement} {tail tail' : Tail}
    (hstep : ∀ st ∈ sts, ∀ tail tail', P tail → addStatement names st tail = .ok tail' → P tail')
    (ht : P tail) (h : addAll names sts tail = .ok tail') : P tail' := by
  induction sts generalizing tail with
  | nil =>
    cases h
    exact ht
  | cons st sts ih =>
    obtain ⟨next, hnext, h⟩ := Steps.bind_eq_ok.mp h
    obtain ⟨hst, hsts⟩ := List.forall_mem_cons.mp hstep
    exact ih hsts (hst tail next ht hnext) h

theorem addAll_written {sts : List Statement} {tail tail' : Tail} (hsts : ∀ st ∈ sts, st.Typed)
    (ht : WrittenTail tail) (h : addAll names sts tail = .ok tail') : WrittenTail tail' :=
  addAll_induction (fun st hst _ _ => addStatement_written (hsts st hst)) ht h

/-- **Every program that a text denotes is as a source writes it.** -/
theorem parse_written {text : String} {file : Option String} {p : Program}
    (h : parse names text file = .ok p) : p.Written := by
  unfold parse at h
  split at h
  · cases h
  · rename_i sts hsts
    split at h
    · cases h
    · rename_i items hitems
      split at h
      · cases h
        obtain ⟨tail, htail, h⟩ := Steps.bind_eq_ok.mp hitems
        cases h
        have hrev : ∀ st ∈ sts.reverse, st.Typed := by simpa using readStatements_typed hsts
        exact (addAll_written hrev ⟨by simp, by simp⟩ htail).2
      · cases h

/-! ### The parts of a program -/

section Written
variable {p : Program} (hp : p.Written)
include hp

theorem Program.Written.data {d : DataDecl} (h : d ∈ p.data) : IsName d.name ∧ d.Plain := by
  obtain ⟨item, hitem, heq⟩ := List.mem_filterMap.mp h
  cases item <;> cases heq
  exact hp _ hitem

theorem Program.Written.routine {r : Routine} (h : r ∈ p.routines) :
    (∀ n ∈ r.name, IsName n) ∧ ∀ node ∈ r.body, node.Written := by
  obtain ⟨item, hitem, heq⟩ := List.mem_filterMap.mp h
  cases item <;> cases heq
  exact hp _ hitem

theorem Program.Written.instruction {i : Instruction} (h : i ∈ p.instructions) :
    ∀ o ∈ i.operands, o.Written := by
  obtain ⟨node, hnode, heq⟩ := List.mem_filterMap.mp h
  obtain ⟨r, hr, hbody⟩ := List.mem_flatMap.mp hnode
  have hw := (Program.Written.routine hp hr).2 node hbody
  cases node <;> cases heq
  exact hw

end Written

end AluVM.Syntax
