import AluVM.Proofs.Disassembly
import AluVM.Proofs.Objects
import AluVM.Proofs.Reading

/-! # Disassembled code is read back

The text of a disassembled instruction is again a line of a routine. It is read from left to right:
an operand takes a line that waits for one (`Opening`) to a line whose last operand is complete
(`Closing`), a comma leads back, and the end of the line makes a statement of it. A body of such
lines is the body of a main routine with the same instructions (`parse_mainSource`).

What is read back is the source up to the spelling of numbers: mnemonics, registers and names are
the same, and a constant is replaced by its value (`Restates`). -/

namespace AluVM

open Syntax Analysis

variable {characters : CharacterNames}

namespace Syntax

/-! ### Operands -/

/-- **An operand and a text that it can be read from.** -/
inductive Operand.Legible : Operand → String → Prop where
  | register {set : String} {index : Int} (name : IsName set) (lower : Text.lower set = set)
      (short : Numeral.isOverlong index = false) :
      Legible (.register set index) (set ++ "[" ++ Numeral.decimal index ++ "]")
  | immediate {v : Int} (short : Numeral.isOverlong v = false) :
      Legible (.immediate ⟨v, Numeral.decimal v, 0⟩) (Numeral.decimal v)
  | symbol {name : String} (h : IsName name) : Legible (.symbol name) name
  | call {library routine : String} (hlibrary : IsName library) (hroutine : IsName routine) :
      Legible (.call library routine) (library ++ "." ++ routine)

/-- A line that waits for an operand, after those of `done`, which are in reverse order. -/
inductive Opening (mnemonic : Token) : (done : List Argument) → Line → Prop where
  | first : Opening mnemonic [] (.word mnemonic)
  | next {done : List Argument} : Opening mnemonic done (.operandNext ⟨none, mnemonic, done⟩)

/-- A line whose operands are complete, the last one first. -/
inductive Closing (mnemonic : Token) : (done : List Argument) → Line → Prop where
  | name {done : List Argument} {t : Token} :
      Closing mnemonic (.name t :: done) (.operandName ⟨none, mnemonic, done⟩ t)
  | number {done : List Argument} {t : Token} :
      Closing mnemonic (.number t :: done) (.operandNumber ⟨none, mnemonic, done⟩ t)
  | done {done : List Argument} : Closing mnemonic done (.operandDone ⟨none, mnemonic, done⟩)

section Line
variable {mnemonic : Token} {done : List Argument} {line : Line} {part : Option Section}

theorem Opening.step_name (h : Opening mnemonic done line) (text : String) (pos : Position) :
    (⟨part, line⟩ : State).step ⟨.name, text, pos⟩ =
      some ⟨part, .operandName ⟨none, mnemonic, done⟩ ⟨.name, text, pos⟩⟩ := by
  cases h <;> rfl

theorem Opening.step_number (h : Opening mnemonic done line) (text : String) (pos : Position) :
    (⟨part, line⟩ : State).step ⟨.number, text, pos⟩ =
      some ⟨part, .operandNumber ⟨none, mnemonic, done⟩ ⟨.number, text, pos⟩⟩ := by
  cases h <;> rfl

theorem Closing.step_comma (h : Closing mnemonic done line) (pos : Position) :
    (⟨part, line⟩ : State).step ⟨.comma, ",", pos⟩ =
      some ⟨part, .operandNext ⟨none, mnemonic, done⟩⟩ := by
  cases h <;> rfl

variable (part)

/-- A line whose operands are complete is a statement at its end. -/
theorem Closing.goes_newline (h : Closing mnemonic done line) (pos : Position) (rest : List Char) :
    Goes ⟨part, line⟩ pos ['\n'] ⟨part, .blank⟩ ⟨pos.line + 1, 1⟩
      [.instruction none mnemonic done.reverse] rest := by
  have hstep : (⟨part, line⟩ : State).step ⟨.newline, "\n", pos⟩ = some ⟨part, .blank⟩ := by
    cases h <;> rfl
  have hstatement : (⟨part, line⟩ : State).statement? =
      some (.instruction none mnemonic done.reverse) := by
    cases h <;> rfl
  have hgoes : Goes _ pos ['\n'] _ _ _ rest := Syntax.goes_newline hstep
  rwa [hstatement] at hgoes

/-- **An operand is read from its text.** -/
theorem Operand.Legible.goes {o : Operand} {text : String} (h : o.Legible text)
    (hline : Opening mnemonic done line) (pos : Position) {rest : List Char} (hrest : Stops rest) :
    ∃ a line' pos', Closing mnemonic (a :: done) line' ∧ a.Denotes o ∧
      Goes ⟨part, line⟩ pos text.toList ⟨part, line'⟩ pos' [] rest := by
  cases h with
  | @register set index hname hlower hshort =>
    have hindex := Numeral.denotes_decimal hshort
    have htext : (set ++ "[" ++ Numeral.decimal index ++ "]").toList =
        set.toList ++ (['['] ++ ((Numeral.decimal index).toList ++ [']'])) := by
      simp
    have hdenotes : ∀ place, Argument.Denotes
        (.indexed ⟨.name, set, pos⟩ ⟨.number, Numeral.decimal index, place⟩)
        (.register set index) := by
      intro place
      have hread : Argument.Denotes
          (.indexed ⟨.name, set, pos⟩ ⟨.number, Numeral.decimal index, place⟩)
          (.register (Text.lower set) index) :=
        .indexed (i := ⟨index, Numeral.decimal index, 0⟩) ⟨hindex, rfl, rfl⟩
      rwa [hlower] at hread
    rw [htext]
    exact ⟨.indexed ⟨.name, set, pos⟩ ⟨.number, Numeral.decimal index, _⟩, _, _, .done, hdenotes _,
      (goes_name hname ⟨'[', _, rfl, rfl⟩ (hline.step_name set pos)).append
        ((goes_fixed (k := .leftBracket) rfl (by decide) rfl).append
          ((goes_number hindex.mem_number ⟨']', _, rfl, rfl⟩ rfl).append
            (goes_fixed (k := .rightBracket) rfl (by decide) rfl)))⟩
  | immediate short =>
    have hvalue := Numeral.denotes_decimal short
    exact ⟨.number ⟨.number, _, pos⟩, _, _, .number, .number ⟨hvalue, rfl, rfl⟩,
      goes_number hvalue.mem_number hrest (hline.step_number _ _)⟩
  | @symbol name hname =>
    exact ⟨.name ⟨.name, _, pos⟩, _, _, .name, .name, goes_name hname hrest (hline.step_name _ _)⟩
  | @call library routine hlibrary hroutine =>
    have htext : (library ++ "." ++ routine).toList =
        library.toList ++ (['.'] ++ routine.toList) := by
      simp
    rw [htext]
    exact ⟨.member ⟨.name, library, pos⟩ ⟨.name, routine, _⟩, _, _, .done, .member,
      (goes_name hlibrary ⟨'.', _, rfl, rfl⟩ (hline.step_name library pos)).append
        ((goes_fixed (k := .dot) rfl (by decide) rfl).append (goes_name hroutine hrest rfl))⟩

/-- Behind an operand stands a comma or the end of the line. -/
theorem stops_operands (texts : List String) (rest : List Char) :
    Stops ((texts.flatMap fun t => ',' :: ' ' :: t.toList) ++ '\n' :: rest) := by
  rcases texts with _ | ⟨t, texts⟩
  · exact ⟨'\n', rest, rfl, rfl⟩
  · exact ⟨',', _, rfl, rfl⟩

/-- **Operands are read one after the other.** -/
theorem goes_operands {os : List Operand} {texts : List String}
    (h : List.Forall₂ Operand.Legible os texts) (hline : Closing mnemonic done line)
    (pos : Position) (rest : List Char) : ∃ as line' pos',
      Closing mnemonic (as.reverse ++ done) line' ∧ List.Forall₂ Argument.Denotes as os ∧
      Goes ⟨part, line⟩ pos (texts.flatMap fun t => ',' :: ' ' :: t.toList) ⟨part, line'⟩ pos' []
        ('\n' :: rest) := by
  induction h generalizing done line pos with
  | nil => exact ⟨[], line, pos, hline, .nil, .refl⟩
  | @cons o text os texts ho _ ih =>
    obtain ⟨a, line₁, pos₁, hclosing, ha, hgoes⟩ :=
      ho.goes part .next ⟨pos.line, pos.col + 2⟩ (stops_operands texts rest)
    obtain ⟨as, line₂, pos₂, hclosing', has, hgoes'⟩ := ih hclosing pos₁
    refine ⟨a :: as, line₂, pos₂, ?_, .cons ha has, ?_⟩
    · rwa [List.reverse_cons, List.append_assoc]
    · exact (goes_fixed (k := .comma) (w := [',']) rfl (by decide) (hline.step_comma pos)).append
        (goes_blank.append (hgoes.append hgoes'))

end Line

/-! ### Lines -/

theorem toList_intercalate_cons (t : String) (ts : List String) :
    (", ".intercalate (t :: ts)).toList =
      t.toList ++ ts.flatMap fun u => ',' :: ' ' :: u.toList := by
  induction ts generalizing t with
  | nil => simp
  | cons u ts ih =>
    rw [String.toList_intercalate, List.map_cons, List.map_cons, List.intercalate_cons_cons,
      ← List.map_cons, ← String.toList_intercalate, ih]
    simp

/-- The instruction can be read from the text. -/
structure Instruction.Legible (i : Instruction) (text : String) : Prop where
  name : IsName i.mnemonic
  lower : Text.lower i.mnemonic = i.mnemonic
  operands : ∃ texts, List.Forall₂ Operand.Legible i.operands texts ∧
    text = instructionText i.mnemonic texts

/-- The reader between two lines of the main routine. -/
def State.inMain : State := ⟨some .main, .blank⟩

/-- **An instruction is read from its line.** -/
theorem Instruction.Legible.goes {i : Instruction} {text : String} (h : i.Legible text)
    (pos : Position) (rest : List Char) : ∃ st pos',
      st.Codes [.instruction { i with pos }] ∧
        Goes .inMain pos (text.toList ++ ['\n']) .inMain pos' [st] rest := by
  obtain ⟨hname, hlower, texts, hoperands, rfl⟩ := h
  have hcodes : ∀ as, List.Forall₂ Argument.Denotes as i.operands →
      (Statement.instruction none ⟨.name, i.mnemonic, pos⟩ as).Codes
        [.instruction { i with pos }] := by
    intro as has
    have hnode : InstructionDenotes ⟨.name, i.mnemonic, pos⟩ as
        (.instruction ⟨Text.lower i.mnemonic, i.operands, pos⟩) := .intro has
    rw [hlower] at hnode
    exact .plain hnode
  rcases texts with _ | ⟨t, ts⟩
  · have hnil : i.operands = [] := List.forall₂_nil_right_iff.mp hoperands
    exact ⟨_, _, hcodes [] (hnil ▸ .nil),
      (goes_name hname ⟨'\n', rest, rfl, rfl⟩ rfl).append (goes_newline rfl)⟩
  · have htext : (instructionText i.mnemonic (t :: ts)).toList ++ ['\n'] = i.mnemonic.toList ++
        ([' '] ++ (t.toList ++ (ts.flatMap fun u => ',' :: ' ' :: u.toList) ++ ['\n'])) := by
      rw [instructionText, List.isEmpty_cons, if_neg Bool.false_ne_true, String.toList_append,
        String.toList_append, toList_intercalate_cons]
      simp
    obtain ⟨o, os, ho, hos, heq⟩ := List.forall₂_cons_right_iff.mp hoperands
    obtain ⟨a, line, pos₁, hclosing, ha, hgoes⟩ := ho.goes (some .main)
      (.first : Opening ⟨.name, i.mnemonic, pos⟩ [] _)
      ⟨pos.line, pos.col + i.mnemonic.toList.length + 1⟩ (stops_operands ts rest)
    obtain ⟨as, line', pos₂, hclosing', has, hgoes'⟩ :=
      goes_operands (some .main) hos hclosing pos₁ rest
    have hfeed := hclosing'.goes_newline (some .main) pos₂ rest
    rw [List.reverse_append, List.reverse_reverse] at hfeed
    rw [htext]
    exact ⟨_, _, hcodes (a :: as) (heq ▸ .cons ha has),
      (goes_name hname ⟨' ', _, rfl, rfl⟩ rfl).append
        (goes_blank.append ((hgoes.append hgoes').append hfeed))⟩

/-- **Instructions are read from their lines.** -/
theorem goes_lines {is : List Instruction} {texts : List String}
    (h : List.Forall₂ Instruction.Legible is texts) (pos : Position) (rest : List Char) :
    ∃ body sts pos', List.Forall₂ (fun i j => ∃ pos, j = { i with pos }) is body ∧
      List.Forall₂ Statement.Codes sts (body.map fun j => [.instruction j]) ∧
      Goes .inMain pos (texts.flatMap fun t => t.toList ++ ['\n']) .inMain pos' sts rest := by
  induction h generalizing pos with
  | nil => exact ⟨[], [], pos, .nil, .nil, .refl⟩
  | @cons i text is texts hi _ ih =>
    obtain ⟨st, pos₁, hcodes, hgoes⟩ := hi.goes pos
      ((texts.flatMap fun t => t.toList ++ ['\n']) ++ rest)
    obtain ⟨body, sts, pos₂, hbody, hcodes', hgoes'⟩ := ih pos₁
    exact ⟨{ i with pos } :: body, st :: sts, pos₂, .cons ⟨pos, rfl⟩ hbody, .cons hcodes hcodes',
      hgoes.trans hgoes'⟩

/-- A source whose main routine has the given lines. -/
def mainSource (lines : List String) : String :=
  ".MAIN\n" ++ String.join (lines.map (· ++ "\n"))

theorem toList_mainSource (lines : List String) : (mainSource lines).toList =
    ['.', 'M', 'A', 'I', 'N'] ++ (['\n'] ++ lines.flatMap fun t => t.toList ++ ['\n']) := by
  simp [mainSource, List.flatMap_map]

theorem getLast?_mainSource (lines : List String) : (['.', 'M', 'A', 'I', 'N'] ++
    (['\n'] ++ lines.flatMap fun t => t.toList ++ ['\n'])).getLast? = some '\n' := by
  rcases lines.eq_nil_or_concat with rfl | ⟨front, last, rfl⟩
  · rfl
  · rw [List.concat_eq_append, List.flatMap_append, List.flatMap_singleton, ← List.append_assoc,
      ← List.append_assoc, ← List.append_assoc, List.getLast?_concat]

/-- **A main routine is read from its lines.** -/
theorem parse_mainSource {is : List Instruction} {texts : List String}
    (h : List.Forall₂ Instruction.Legible is texts) (file : Option String) :
    ∃ body, List.Forall₂ (fun i j => ∃ pos, j = { i with pos }) is body ∧
      parse characters (mainSource texts) file =
        .ok ⟨[.routine ⟨none, body.map .instruction, ⟨1, 1⟩⟩], file⟩ := by
  obtain ⟨body, sts, pos, hbody, hcodes, hgoes⟩ := goes_lines h ⟨2, 1⟩ []
  have hkeyword : Goes .start ⟨1, 1⟩ ['.', 'M', 'A', 'I', 'N']
      ⟨some .main, .complete (.main ⟨.keyword .main, ".MAIN", ⟨1, 1⟩⟩)⟩ ⟨1, 6⟩ []
      (['\n'] ++ (texts.flatMap fun t => t.toList ++ ['\n']) ++ []) :=
    goes_fixed (k := .keyword .main) rfl (by decide) rfl
  have hstatements := readStatements_of_goes_closed (toList_mainSource texts)
    (getLast?_mainSource texts) (hkeyword.append ((goes_newline rfl).trans hgoes))
  have hflatten : (body.map fun j => [Node.instruction j]).flatten = body.map .instruction := by
    rw [← List.flatMap_def, ← List.map_eq_flatMap]
  have hdenote : Denote characters [⟨some (.main ⟨.keyword .main, ".MAIN", ⟨1, 1⟩⟩), sts⟩]
      [.routine ⟨none, body.map .instruction, ⟨1, 1⟩⟩] :=
    ⟨_, .cons (.routine hcodes .main) .nil, by rw [hflatten]; rfl⟩
  refine ⟨body, hbody, hdenote.parse_eq ?_⟩
  rw [List.flatMap_singleton]
  exact hstatements

end Syntax

/-! ### Tables -/

theorem Syntax.isName_of_matchName {s : String} (h : matchName s.toList = some (s.toList, [])) :
    IsName s :=
  Token.Is.isName (t := ⟨.name, s, ⟨1, 1⟩⟩) ⟨rfl, s.toList, [], h⟩

/-- Mnemonics are names. -/
theorem Spec.mnemonic_isName : ∀ s ∈ Spec.all,
    matchName s.mnemonic.toList = some (s.mnemonic.toList, []) := by
  decide +kernel

/-- Register sets have names in lower case. -/
theorem RegisterSet.name_isName : ∀ s ∈ RegisterSet.all,
    matchName s.name.toList = some (s.name.toList, []) ∧ Text.lower s.name = s.name := by
  decide +kernel

theorem Spec.mnemonic_of_named? {mnemonic : String} {s : Spec}
    (h : Spec.named? mnemonic = some s) : s.mnemonic = Text.lower mnemonic := by
  unfold Spec.named? at h
  simpa using List.find?_some h

theorem RegisterSet.name_of_named? {token : String} {s : RegisterSet}
    (h : RegisterSet.named? token = some s) : s.name = Text.lower (Text.strip token) := by
  unfold RegisterSet.named? at h
  simpa using List.find?_some h

/-! ### What is read back -/

namespace Analysis

/-- **What an operand of a program is replaced by** where it stands in a slot: a number by the same
number, a constant by its value, and everything else by itself. -/
inductive Restated (p : Program) : Slot → Operand → Operand → Prop where
  | register {banks : List Bank} {sets : List String} {set : String} {index : Int} :
      Restated p (.register banks sets) (.register set index) (.register set index)
  | literal {bits : Nat} {signed : Bool} {i j : Immediate} (h : j.value = i.value) :
      Restated p (.immediate bits signed) (.immediate i) (.immediate j)
  | constant {bits : Nat} {signed : Bool} {d : ConstantDecl} {j : Immediate}
      (hd : d ∈ p.constants) (h : j.value = d.value.value) :
      Restated p (.immediate bits signed) (.symbol d.name) (.immediate j)
  | label {name : String} : Restated p .label (.symbol name) (.symbol name)
  | datum {name : String} : Restated p .data (.symbol name) (.symbol name)
  | call {library routine : String} :
      Restated p .foreign (.call library routine) (.call library routine)

/-- **An instruction of a program and one that says the same**: the mnemonic is the same, and every
operand is restated for its slot. -/
structure Restates (p : Program) (i j : Instruction) : Prop where
  mnemonic : j.mnemonic = i.mnemonic
  operands : ∃ spec, Spec.named? i.mnemonic = some spec ∧
    i.operands.length = spec.slots.length ∧
    List.Forall₂ (fun pair operand => Restated p pair.2 pair.1 operand)
      (i.operands.zip spec.slots) j.operands

/-! ### Restating a program -/

/-- The name of a register set stands in a source in lower case, which is how it is shown. -/
theorem register_token {argument : Argument} (hargument : argument.Typed) {token : String}
    {index : Int} (hoperand : argument.operand = .ok (.register token index)) {set : RegisterSet}
    (named : RegisterSet.named? token = some set) : token = set.name := by
  cases argument with
  | indexed word number =>
    obtain ⟨i, -, heq⟩ := Steps.bind_eq_ok.mp hoperand
    cases heq
    obtain ⟨hstrip, hlow⟩ := hargument.1.isName.lower_strip
    rw [RegisterSet.name_of_named? named, hstrip, hlow]
  | number value =>
    obtain ⟨i, -, heq⟩ := Steps.map_eq_ok.mp hoperand
    cases heq
  | _ => cases hoperand

section Accepted
variable {p : Program} {a : Analysis} (ha : Accepted p a)
include ha

/-- **The text of an operand restates it.** -/
theorem Classified.exists_legible {slot : Slot} {operand meaning : Operand} {argument : Argument}
    {text : String} (hc : Classified a.symbols slot operand meaning) (hsize : slot.size < wordSize)
    (hargument : argument.Typed) (hoperand : argument.operand = .ok operand)
    (hshown : meaning.Shown text) : ∃ o, Restated p slot operand o ∧ o.Legible text := by
  have hwritten := operand_written hargument hoperand
  cases hc with
  | @register banks sets token index set named bank allowed inside =>
    have hset := RegisterSet.mem_all_of_named? named
    obtain ⟨hself, hcount⟩ := RegisterSet.all_named set hset
    obtain ⟨hname, hlower⟩ := RegisterSet.name_isName set hset
    cases hshown with
    | register hnamed =>
      rw [hself] at hnamed
      cases hnamed
      obtain rfl := register_token hargument hoperand named
      refine ⟨_, .register, .register (isName_of_matchName hname) hlower ?_⟩
      refine Numeral.not_isOverlong ?_
      simp only [RegisterSet.hasIndex, Bool.and_eq_true, decide_eq_true_eq] at inside
      omega
  | @literal bits signed i fits =>
    cases hshown
    have hbits : bits ≤ 256 := by
      simp only [Slot.size, wordSize] at hsize
      omega
    exact ⟨.immediate ⟨i.value, Numeral.decimal i.value, 0⟩, .literal rfl,
      .immediate (Numeral.not_isOverlong_of_fits fits hbits)⟩
  | @constant bits signed name s declared fits =>
    cases hshown
    have hbits : bits ≤ 256 := by
      simp only [Slot.size, wordSize] at hsize
      omega
    obtain ⟨d, hd, rfl, hvalue⟩ := ha.mem_constants declared
    refine ⟨_, .constant hd ?_, .immediate (Numeral.not_isOverlong_of_fits fits hbits)⟩
    rw [hvalue]
    rfl
  | label declared =>
    cases hshown
    exact ⟨_, .label, .symbol hwritten⟩
  | datum declared =>
    cases hshown
    exact ⟨_, .datum, .symbol hwritten⟩
  | call =>
    cases hshown
    exact ⟨_, .call, .call hwritten.1 hwritten.2⟩

/-- **The text of an instruction restates it.** -/
theorem Sound.exists_legible {offset : Nat} {i : Instruction} {q : Placed} {text : String}
    (h : Sound a.symbols a.mask offset i q) (hi : i.Comes) (hshown : q.ShownAs text) :
    ∃ j, Restates p i j ∧ j.Legible text := by
  obtain ⟨texts, htexts, rfl⟩ := hshown
  have hspec := Spec.mem_all_of_named? h.spec
  have hmnemonic : q.spec.mnemonic = i.mnemonic := by
    rw [Spec.mnemonic_of_named? h.spec, hi.lower_mnemonic]
  have hboth : List.Forall₂ (fun pair text => ∃ o, Restated p pair.2 pair.1 o ∧ o.Legible text)
      (i.operands.zip q.spec.slots) texts := by
    refine Steps.forall₂_imp_mem (Steps.forall₂_comp.mpr ⟨_, h.operands, htexts⟩) ?_
    rintro pair hpair text - ⟨meaning, hclassified, hshown⟩
    obtain ⟨hoperand, hslot⟩ := List.of_mem_zip hpair
    obtain ⟨argument, htyped, heq⟩ := hi.argument hoperand
    exact hclassified.exists_legible ha (Spec.slot_size q.spec hspec _ hslot) htyped heq hshown
  obtain ⟨os, hrestated, hlegible⟩ := Steps.forall₂_comp.mp hboth
  refine ⟨⟨i.mnemonic, os, i.pos⟩, ⟨rfl, q.spec, h.spec, h.count, hrestated⟩, ?_⟩
  rw [hmnemonic]
  refine ⟨?_, hi.lower_mnemonic, texts, hlegible, rfl⟩
  rw [← hmnemonic]
  exact isName_of_matchName (Spec.mnemonic_isName q.spec hspec)

end Accepted

/-- **Disassembly inverts encoding.** A word that was encoded is shown as its mnemonic and its
operands, given its relocations. The lines of an assembled object are as many as the instructions of
its source, and however lines are picked and put into a main routine, the source of that routine
is read as instructions that restate those of the same numbers. -/
theorem disassembly_restates_source (characters : CharacterNames) :
    (∀ (q : Placed) (file : Option String) (word : Bytes) (relocations : List Relocation)
      (names : Names), q.spec ∈ Spec.all → q.encode file = .ok (word, relocations) →
      names.relocations = told relocations →
        ∃ text, Disassembly.word names q.offset word = .ok text ∧ q.ShownAs text) ∧
    ∀ (text : String) (file file' name : Option String) (p : Program) (extra : List String)
      (a : Analysis) (o : Object) (names : Names), parse characters text file = .ok p →
      ofProgram p extra file' = .ok a → a.ok = true → a.encode name = .ok o →
      names.relocations = told o.relocations →
        ∃ ls, Disassembly.lines names o.code = .ok ls ∧ ls.length = p.instructions.length ∧
          ∀ picked : List (Disassembly.Line × Instruction),
            (∀ x ∈ picked, ∃ k : Nat, ls[k]? = some x.1 ∧ p.instructions[k]? = some x.2) →
            ∀ file'', ∃ body, List.Forall₂ (Restates p) (picked.map (·.2)) body ∧
              parse characters (mainSource (picked.map (·.1.text))) file'' =
                .ok ⟨[.routine ⟨none, body.map .instruction, ⟨1, 1⟩⟩], file''⟩ := by
  refine ⟨fun q file word relocations names hspec h hnames => word_of_encode hspec h hnames, ?_⟩
  intro text file file' name p extra a o names hparse hanalysis hok hencode hnames
  have hassembled := assembled_of_encode hparse hanalysis hok hencode
  have haccepted := hassembled.accepted
  obtain ⟨ls, hls, hlength, hshown⟩ := hassembled.encoded.exists_lines haccepted hnames
  have hcount : a.code.length = p.instructions.length := by
    rw [← haccepted.code.length_eq, List.length_zipIdx]
  refine ⟨ls, hls, hlength.trans hcount, fun picked hpicked file'' => ?_⟩
  have hlegible : ∀ x ∈ picked, ∃ j, Restates p x.2 j ∧ j.Legible x.1.text := by
    intro x hx
    obtain ⟨k, hline, hinstruction⟩ := hpicked x hx
    have hk : k < a.code.length := hcount ▸ (List.getElem?_eq_some_iff.mp hinstruction).1
    obtain ⟨i, hi, hsound⟩ := haccepted.sound_of_code (List.getElem?_eq_getElem hk)
    obtain ⟨l, hl, htext⟩ := hshown k _ (List.getElem?_eq_getElem hk)
    cases hl.symm.trans hline
    cases hi.symm.trans hinstruction
    exact hsound.exists_legible haccepted (parse_comes hparse (List.mem_of_getElem? hi)) htext
  obtain ⟨js, hjs⟩ := Steps.exists_forall₂ hlegible
  have htexts : List.Forall₂ Instruction.Legible js (picked.map (·.1.text)) :=
    List.forall₂_map_right_iff.mpr (hjs.imp fun _ _ h => h.2).flip
  obtain ⟨body, hbody, hread⟩ := parse_mainSource htexts file''
  refine ⟨body, List.forall₂_map_left_iff.mpr ?_, hread⟩
  refine (Steps.forall₂_comp.mpr ⟨js, hjs, hbody⟩).imp ?_
  rintro x i ⟨j, ⟨hrestates, -⟩, pos, rfl⟩
  exact ⟨hrestates.mnemonic, hrestates.operands⟩

/-- A program with a constant, a label, a datum, a routine of a library and numbers in several
spellings. -/
def mixedSource : String :=
  ".LIBS\nm\n.CONST\nk = -0x10\n.DATA\nd = u8 1\n.MAIN\nl: PUT A8[0x1], k\nput a16[2], 0b11\n" ++
    "putd s16[3], d\ncall m.f\njmp l\nnop\n"

/-- The jump of that program. -/
def mixedJump : Placed := ⟨32, ⟨"jmp", 0x02, [.label], false, .alu⟩, [.label "l"], ⟨12, 1⟩⟩

theorem disassembly_restates_mixed :
    (∃ text, Disassembly.word { relocations := [(33, "l")] } 32 [0x02, 0, 0, 0, 0, 0, 0, 0] =
      .ok text ∧ mixedJump.ShownAs text) ∧
    ∃ p o ls body, parse nameless mixedSource none = .ok p ∧ objectOf? mixedSource = some o ∧
      Disassembly.lines o.names o.code = .ok ls ∧ ls.length = 6 ∧
      List.Forall₂ (Restates p) p.instructions body ∧
      parse nameless (mainSource (ls.map (·.text))) none =
        .ok ⟨[.routine ⟨none, body.map .instruction, ⟨1, 1⟩⟩], none⟩ := by
  obtain ⟨hword, hsource⟩ := disassembly_restates_source nameless
  have hencode : mixedJump.encode none =
      .ok ([0x02, 0, 0, 0, 0, 0, 0, 0], [⟨33, .localOffset, "l"⟩]) := by
    decide +kernel
  refine ⟨hword mixedJump none _ _ _ (by decide +kernel) hencode rfl, ?_⟩
  obtain ⟨o, ho⟩ := Option.isSome_iff_exists.mp
    (by decide +kernel : (objectOf? mixedSource).isSome)
  obtain ⟨p, a, hparse, hanalysis, hok, hencode⟩ := stages_of_objectOf? ho
  have hcount : (parse nameless mixedSource none).toOption.map (·.instructions.length) = some 6 := by
    decide +kernel
  rw [hparse] at hcount
  obtain ⟨ls, hls, hlength, hpicked⟩ :=
    hsource mixedSource none none none p [] a o o.names hparse hanalysis hok hencode rfl
  have hzip : ∀ x ∈ ls.zip p.instructions, ∃ k : Nat, ls[k]? = some x.1 ∧
      p.instructions[k]? = some x.2 := by
    intro x hx
    obtain ⟨k, hk⟩ := List.getElem?_of_mem hx
    exact ⟨k, List.getElem?_zip_eq_some.mp hk⟩
  obtain ⟨body, hbody, hread⟩ := hpicked _ hzip none
  have htexts : (ls.zip p.instructions).map (·.1.text) = ls.map (·.text) := by
    conv_rhs => rw [← List.map_fst_zip (Nat.le_of_eq hlength), List.map_map]
    rfl
  rw [List.map_snd_zip (Nat.le_of_eq hlength.symm)] at hbody
  rw [htexts] at hread
  exact ⟨p, o, ls, body, hparse, ho, hls, hlength.trans (Option.some.inj hcount), hbody, hread⟩

end Analysis

end AluVM
