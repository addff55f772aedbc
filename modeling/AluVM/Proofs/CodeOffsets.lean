import AluVM.Proofs.Acceptance
import AluVM.Proofs.AssembledFiles
import AluVM.Proofs.Reading

/-! # The offsets of code

Routines, labels and the main routine are at multiples of the size of a word, and none of them lies
behind the end of the code. The first pass refuses a routine or a label that is out of reach, but it
takes the main routine wherever it starts (`entry_of_ofProgram`). So the entry of an object is out
of reach exactly if the code is full and the main routine starts behind all of it
(`Program.EntersBehindFullCode`), and there are such sources (`entry_out_of_reach`). -/

namespace AluVM

open Syntax

variable {names : CharacterNames}

/-- **The code is full, and the main routine starts behind it.** -/
def Syntax.Program.EntersBehindFullCode (p : Program) : Prop :=
  p.instructions.length = 8192 ∧
    ∃ before pos after, p.lines = before ++ .entry pos :: after ∧ wordsOf after = []

namespace Analysis

/-! ### Where the main routine starts -/

theorem entries_append (offset : Nat) (xs ys : List CodeLine) : entries offset (xs ++ ys) =
    entries offset xs ++ entries (offset + wordSize * (wordsOf xs).length) ys := by
  induction xs generalizing offset with
  | nil => rfl
  | cons line xs ih =>
    cases line with
    | entry pos => exact congrArg (offset :: ·) (ih offset)
    | mark kind name pos => exact ih offset
    | word i =>
      have hlen : (wordsOf (.word i :: xs)).length = (wordsOf xs).length + 1 := rfl
      rw [hlen, Nat.mul_add, Nat.mul_one, Nat.add_comm (wordSize * _), ← Nat.add_assoc]
      exact ih (offset + wordSize)

/-- A main routine is at the size of a word times the number of instructions before it. -/
theorem exists_of_mem_entries {offset e : Nat} {ls : List CodeLine} (h : e ∈ entries offset ls) :
    ∃ before pos after, ls = before ++ .entry pos :: after ∧
      e = offset + wordSize * (wordsOf before).length := by
  induction ls generalizing offset with
  | nil => cases h
  | cons line ls ih =>
    cases line with
    | entry pos =>
      rcases List.mem_cons.mp h with rfl | h
      · exact ⟨[], pos, ls, rfl, rfl⟩
      · obtain ⟨before, pos', after, rfl, he⟩ := ih h
        exact ⟨.entry pos :: before, pos', after, rfl, he⟩
    | mark kind name pos =>
      obtain ⟨before, pos', after, rfl, he⟩ := ih h
      exact ⟨.mark kind name pos :: before, pos', after, rfl, he⟩
    | word i =>
      obtain ⟨before, pos, after, rfl, he⟩ := ih h
      have hlen : (wordsOf (.word i :: before)).length = (wordsOf before).length + 1 := rfl
      refine ⟨.word i :: before, pos, after, rfl, ?_⟩
      rw [he, hlen, Nat.mul_add]
      omega

/-- **The entry of a program** is where its first main routine starts. -/
theorem entry_of_ofProgram {p : Program} {extra : List String} {file : Option String}
    {a : Analysis} (h : ofProgram p extra file = .ok a) : a.entry = (entries 0 p.lines).head? := by
  obtain ⟨sizes, -, h⟩ := Steps.bind_eq_ok.mp h
  have hlayout : (Layout.ofProgram p extra sizes).1.entry = (entries 0 p.lines).head? := by
    simp only [Layout.ofProgram, Layout.gather_addRoutine]
    rw [Layout.entry_of_gather, (Layout.start_of_code ..).1, (Layout.start_of_code ..).2]
    rfl
  simp only at h
  split_ifs at h
  · cases h
  · cases h
    exact hlayout

/-- An accepted program has one main routine at most. -/
theorem length_entries_le_one {p : Program} {extra : List String} (h : p.WellFormed extra) :
    (entries 0 p.lines).length ≤ 1 := by
  rw [length_entries]
  exact (p.nodup_entries_iff.mpr h.main).length_le_card

/-! ### Offsets in reach -/

theorem instructions_of_split {p : Program} {before after : List CodeLine} {line : CodeLine}
    (h : p.lines = before ++ line :: after) (hline : line.word? = none) :
    p.instructions = wordsOf before ++ wordsOf after := by
  rw [← wordsOf_lines, h, wordsOf_append, wordsOf, wordsOf, List.filterMap_cons_none hline]
  rfl

theorem length_instructions_of_split {p : Program} {before after : List CodeLine} {line : CodeLine}
    (h : p.lines = before ++ line :: after) (hline : line.word? = none) :
    p.instructions.length = (wordsOf before).length + (wordsOf after).length := by
  rw [instructions_of_split h hline, List.length_append]

theorem Assembled.length_code_eq {p : Program} {a : Analysis} {o : Object} (h : Assembled p a o) :
    o.code.length = 8 * p.instructions.length ∧ p.instructions.length ≤ 8192 := by
  have hcount : a.code.length = p.instructions.length := by
    simpa using h.accepted.code.length_eq.symm
  have hsize := h.accepted.codeSize_le
  have hlimits : wordSize = 8 ∧ maxSegment = 65536 := ⟨rfl, rfl⟩
  rw [h.accepted.codeSize, hlimits.1, hlimits.2] at hsize
  rw [h.encoded.length_code, hcount, hlimits.1]
  omega

/-- Routines and labels are in reach: the first pass has refused those that are not. -/
theorem Assembled.offset_in_reach {p : Program} {a : Analysis} {o : Object} (h : Assembled p a o)
    {x : ObjectSymbol} (hx : x ∈ o.exports ++ o.symbols) (hkind : x.kind ≠ .dataSymbol) :
    8 ∣ x.value ∧ 0 ≤ x.value ∧ x.value ≤ o.code.length ∧ x.value ≤ 65535 := by
  have hspace : x.kind.space = .code := by
    obtain ⟨s, -, hspace, rfl⟩ := h.encoded.mem_all.mp hx
    rcases hs : s.kind <;> simp [hs, SymbolKind.space] at hspace hkind ⊢
  obtain ⟨before, pos, after, hlines, hvalue⟩ := h.exists_mark hx hspace
  have hcount := length_instructions_of_split hlines rfl
  have hcode := h.length_code_eq.1
  have hreach := (h.reach hx).2
  have hlimits : wordSize = 8 ∧ maxOffset = 65535 := ⟨rfl, rfl⟩
  rw [hlimits.1] at hvalue
  omega

/-- **The entry of an object** is the size of a word times the number of instructions before the
line that opens the main routine. -/
theorem entry_eq_some_iff {p : Program} {extra : List String} {file name : Option String}
    {a : Analysis} {o : Object} (hp : p.WellFormed extra) (h : ofProgram p extra file = .ok a)
    (hencode : a.encode name = .ok o) {e : Int} : o.entry = some e ↔
      ∃ before pos after, p.lines = before ++ .entry pos :: after ∧
        e = (8 * (wordsOf before).length : Nat) := by
  have hword : wordSize = 8 := rfl
  rw [entry_of_encode hencode, entry_of_ofProgram h]
  constructor
  · intro he
    obtain ⟨n, hn, rfl⟩ := Option.map_eq_some_iff.mp he
    obtain ⟨before, pos, after, hlines, hvalue⟩ := exists_of_mem_entries (List.mem_of_head? hn)
    rw [hword, Nat.zero_add] at hvalue
    exact ⟨before, pos, after, hlines, congrArg Nat.cast hvalue⟩
  · rintro ⟨before, pos, after, hlines, rfl⟩
    have hmem : 8 * (wordsOf before).length ∈ entries 0 p.lines := by
      rw [hlines, entries_append, Nat.zero_add]
      exact List.mem_append_right _ List.mem_cons_self
    -- There is no second main routine that could be the first one in the list.
    obtain ⟨n, hn⟩ : ∃ n, entries 0 p.lines = [n] :=
      List.length_eq_one_iff.mp ((length_entries_le_one hp).antisymm (List.length_pos_of_mem hmem))
    rw [hn] at hmem ⊢
    rw [List.mem_singleton.mp hmem]
    rfl

/-- **Every offset of the code of an object is addressable**, the entry aside: it is out of reach
exactly if the code is full and the main routine starts behind it. -/
theorem code_offsets_addressable {text : String} {file file' : Option String} {p : Program}
    {extra : List String} {a : Analysis} (hparse : parse names text file = .ok p)
    (hanalysis : ofProgram p extra file' = .ok a) (hok : a.ok = true) (name : Option String) :
    ∃ o, a.encode name = .ok o ∧
      (∀ x ∈ o.exports ++ o.symbols, x.kind ≠ .dataSymbol →
        8 ∣ x.value ∧ 0 ≤ x.value ∧ x.value ≤ o.code.length ∧ x.value ≤ 65535) ∧
      (∀ e ∈ o.entry, 8 ∣ e ∧ 0 ≤ e ∧ e ≤ o.code.length) ∧
      ((∀ e ∈ o.entry, e ≤ 65535) ↔ ¬ p.EntersBehindFullCode) := by
  obtain ⟨o, hencode, -, -⟩ :=
    exists_encode (parse_written hparse) (ofProgram_accepted hanalysis hok) hok name
  have hassembled := assembled_of_encode hparse hanalysis hok hencode
  obtain ⟨hcode, hfull⟩ := hassembled.length_code_eq
  have hentry (e : Int) :=
    entry_eq_some_iff (wellFormed_of_ok hparse hanalysis hok) hanalysis hencode (e := e)
  refine ⟨o, hencode, fun x hx hkind => hassembled.offset_in_reach hx hkind, ?_, ?_⟩
  · intro e he
    obtain ⟨before, pos, after, hlines, rfl⟩ := (hentry e).mp he
    have hcount := length_instructions_of_split hlines rfl
    omega
  · constructor
    · rintro hreach ⟨hfull, before, pos, after, hlines, hafter⟩
      have hcount := length_instructions_of_split hlines rfl
      rw [hafter, List.length_nil] at hcount
      have hle := hreach _ ((hentry _).mpr ⟨before, pos, after, hlines, rfl⟩)
      omega
    · intro hno e he
      obtain ⟨before, pos, after, hlines, rfl⟩ := (hentry e).mp he
      have hcount := length_instructions_of_split hlines rfl
      by_contra hout
      have hnil : wordsOf after = [] := List.length_eq_zero_iff.mp (by omega)
      exact hno ⟨by omega, before, pos, after, hlines, hnil⟩

/-- Two routines, of which the second is the main one, and a label. -/
def routinesSource : String := ".ROUTINE f\nnop\nl: ret\n.MAIN\njmp l\n"

theorem code_offsets_addressable_routines : ∃ p a o, parse nameless routinesSource none = .ok p ∧
    ofProgram p [] none = .ok a ∧ a.ok = true ∧ a.encode none = .ok o ∧
    (∀ x ∈ o.exports ++ o.symbols, x.kind ≠ .dataSymbol →
      8 ∣ x.value ∧ 0 ≤ x.value ∧ x.value ≤ o.code.length ∧ x.value ≤ 65535) ∧
    (o.entry, o.exports, o.symbols) =
      (some 16, [⟨"f", .exportedLabel, 0⟩], [⟨"l", .localLabel, 8⟩]) := by
  obtain ⟨o, hobject, hparts⟩ := Option.map_eq_some_iff.mp
    (by decide +kernel :
      (objectOf? routinesSource).map (fun o => (o.entry, o.exports, o.symbols)) =
        some (some 16, [⟨"f", .exportedLabel, 0⟩], [⟨"l", .localLabel, 8⟩]))
  obtain ⟨p, a, hparse, hanalysis, hok, hencode⟩ := stages_of_objectOf? hobject
  obtain ⟨o', hencode', hsymbols, -⟩ := code_offsets_addressable hparse hanalysis hok none
  cases hencode.symm.trans hencode'
  exact ⟨p, a, o, hparse, hanalysis, hok, hencode, hsymbols, hparts⟩

/-! ### An entry out of reach -/

/-- A routine of `n` instructions that do nothing, and behind it a main routine that is empty. -/
def paddedSource (n : Nat) : String :=
  ".ROUTINE f\n" ++ String.join (List.replicate n "nop\n") ++ ".MAIN\n"

/-- The instruction that does nothing, on a given line. -/
def nopAt (line : Nat) : Instruction := ⟨"nop", [], ⟨line, 1⟩⟩

/-- The program of such a source. -/
def paddedProgram (n : Nat) : Program where
  items := [.routine ⟨some "f", (List.range' 2 n).map fun k => .instruction (nopAt k), ⟨1, 10⟩⟩,
    .routine ⟨none, [], ⟨2 + n, 1⟩⟩]

/-- The statement of such an instruction. -/
def nopStatement (line : Nat) : Statement := .instruction none ⟨.name, "nop", ⟨line, 1⟩⟩ []

theorem goes_nops (n line : Nat) (rest : List Char) :
    Goes ⟨some .routine, .blank⟩ ⟨line, 1⟩ ((List.replicate n "nop\n").flatMap String.toList)
      ⟨some .routine, .blank⟩ ⟨line + n, 1⟩ ((List.range' line n).map nopStatement) rest := by
  induction n generalizing line with
  | zero => exact .refl
  | succ n ih =>
    have hrest : ['o', 'p'].all continuesName = true := by decide
    have hname : IsName "nop" := ⟨'n', ['o', 'p'], rfl, rfl, List.all_eq_true.mp hrest⟩
    have hline : Goes ⟨some .routine, .blank⟩ ⟨line, 1⟩ ("nop".toList ++ ['\n'])
        ⟨some .routine, .blank⟩ ⟨line + 1, 1⟩ [nopStatement line]
        ((List.replicate n "nop\n").flatMap String.toList ++ rest) :=
      (goes_name hname ⟨'\n', _, rfl, rfl⟩ rfl).append (goes_newline rfl)
    have hnext := ih (line + 1)
    rw [Nat.add_assoc, Nat.add_comm 1] at hnext
    rw [List.replicate_succ, List.flatMap_cons, List.range'_succ, List.map_cons]
    exact hline.trans hnext

theorem readStatements_paddedSource (n : Nat) : readStatements (paddedSource n) =
    .ok (.routine ⟨.name, "f", ⟨1, 10⟩⟩ :: ((List.range' 2 n).map nopStatement ++
      [.main ⟨.keyword .main, ".MAIN", ⟨2 + n, 1⟩⟩])) := by
  have htext : (paddedSource n).toList = ['.', 'R', 'O', 'U', 'T', 'I', 'N', 'E'] ++ ([' '] ++
      (['f'] ++ (['\n'] ++ ((List.replicate n "nop\n").flatMap String.toList ++
        (['.', 'M', 'A', 'I', 'N'] ++ ['\n']))))) := by
    simp [paddedSource]
  have hname : IsName "f" := ⟨'f', [], rfl, rfl, by simp⟩
  refine readStatements_of_goes_closed htext ?_ ((goes_fixed (k := .keyword .routine) rfl
    (by decide) rfl).append (goes_blank.append ((goes_name hname ⟨'\n', _, rfl, rfl⟩ rfl).append
      ((goes_newline rfl).trans ((goes_nops n 2 _).trans
        ((goes_fixed (k := .keyword .main) rfl (by decide) rfl).append (goes_newline rfl)))))))
  simp only [← List.append_assoc, List.getLast?_concat]

theorem parse_paddedSource (n : Nat) :
    parse names (paddedSource n) none = .ok (paddedProgram n) := by
  have hcodes : List.Forall₂ Statement.Codes ((List.range' 2 n).map nopStatement)
      ((List.range' 2 n).map fun k => [.instruction (nopAt k)]) := by
    rw [List.forall₂_map_left_iff, List.forall₂_map_right_iff, List.forall₂_same]
    intro k _
    have hnode : InstructionDenotes ⟨.name, "nop", ⟨k, 1⟩⟩ []
        (.instruction ⟨Text.lower "nop", [], ⟨k, 1⟩⟩) := .intro .nil
    rw [show Text.lower "nop" = "nop" by decide] at hnode
    exact .plain hnode
  have hflatten : ((List.range' 2 n).map fun k => [Node.instruction (nopAt k)]).flatten =
      (List.range' 2 n).map fun k => .instruction (nopAt k) := by
    rw [← List.flatMap_def, ← List.map_eq_flatMap]
  have hdenote : Denote names [
      ⟨some (.routine ⟨.name, "f", ⟨1, 10⟩⟩), (List.range' 2 n).map nopStatement⟩,
      ⟨some (.main ⟨.keyword .main, ".MAIN", ⟨2 + n, 1⟩⟩), []⟩] (paddedProgram n).items :=
    ⟨_, .cons (.routine hcodes .routine) (.cons (.routine .nil .main) .nil), by
      rw [hflatten]
      rfl⟩
  exact hdenote.parse_eq (readStatements_paddedSource n)

theorem lines_paddedProgram (n : Nat) : (paddedProgram n).lines =
    .mark .exportedLabel "f" ⟨1, 10⟩ :: (((List.range' 2 n).map nopAt).map .word ++
      [.entry ⟨2 + n, 1⟩]) := by
  simp [Program.lines, Program.routines, paddedProgram, Routine.lines, Routine.opening,
    Function.comp_def, Node.line]

theorem wordsOf_map_word (is : List Instruction) : wordsOf (is.map .word) = is := by
  rw [wordsOf, List.filterMap_map]
  exact List.filterMap_some

theorem entries_map_word (offset : Nat) (is : List Instruction) :
    entries offset (is.map .word) = [] := by
  induction is generalizing offset with
  | nil => rfl
  | cons i is ih => exact ih (offset + wordSize)

theorem instructions_paddedProgram (n : Nat) :
    (paddedProgram n).instructions = (List.range' 2 n).map nopAt := by
  have hsplit : (paddedProgram n).lines =
      [] ++ .mark .exportedLabel "f" ⟨1, 10⟩ :: _ := lines_paddedProgram n
  rw [instructions_of_split hsplit rfl, wordsOf_append, wordsOf_map_word]
  simp [wordsOf, CodeLine.word?]

/-- Nothing is wrong with such a program as long as its code has room. -/
theorem wellFormed_paddedProgram {n : Nat} (hn : n ≤ 8192) : (paddedProgram n).WellFormed [] where
  extensions := by simp [Program.asked, Program.extensions, paddedProgram]
  libraries := by simp [Program.libraries, paddedProgram]
  ids := by simp [Program.libraries, paddedProgram]
  constants := by simp [Program.constants, paddedProgram]
  data := by simp [Program.data, paddedProgram]
  room := ⟨[], by simp [Program.data, paddedProgram]⟩
  main := by simp [Program.routines, paddedProgram]
  code := by
    have hwords : (((List.range' 2 n).map nopAt).map CodeLine.word).filterMap CodeLine.name? = [] :=
      by simp [CodeLine.name?]
    have hnames : (paddedProgram n).codeNames = ["f"] := by
      rw [Program.codeNames, lines_paddedProgram]
      change "f" :: List.filterMap _ _ = _
      rw [List.filterMap_append, hwords]
      rfl
    simp [hnames]
  reach := by
    intro before kind name pos after hsplit
    rw [lines_paddedProgram] at hsplit
    rcases before with _ | ⟨line, before⟩
    · simp [wordsOf]
    · -- The only mark is on the first line.
      have hmem : CodeLine.mark kind name pos ∈
          ((List.range' 2 n).map nopAt).map .word ++ [.entry ⟨2 + n, 1⟩] := by
        rw [(List.cons.inj hsplit).2]
        exact List.mem_append_right before List.mem_cons_self
      simp at hmem
  size := by
    rw [instructions_paddedProgram, List.length_map, List.length_range']
    omega
  instructions := by
    intro i hi
    rw [instructions_paddedProgram] at hi
    obtain ⟨k, -, rfl⟩ := List.mem_map.mp hi
    obtain ⟨spec, hspec, hname, hextension, hslots⟩ : ∃ spec ∈ Spec.all,
        spec.mnemonic = Text.lower "nop" ∧ spec.extension = .alu ∧ spec.slots = [] := by
      decide +kernel
    exact ⟨spec, hspec, hname, .inl hextension, by rw [hslots]; exact .nil, by simp [nopAt]⟩

/-- The main routine of such a source starts behind its instructions. -/
theorem entry_of_paddedSource {n : Nat} (hn : n ≤ 8192) : ∃ p a o,
    parse names (paddedSource n) none = .ok p ∧ ofProgram p [] none = .ok a ∧ a.ok = true ∧
      a.encode none = .ok o ∧ o.entry = some (8 * n : Nat) := by
  have hparse := @parse_paddedSource names n
  obtain ⟨a, o, ha, hok, ho⟩ :=
    exists_object_of_wellFormed hparse (wellFormed_paddedProgram hn) none none
  refine ⟨_, a, o, hparse, ha, hok, ho, ?_⟩
  have hentries : entries 0 (paddedProgram n).lines = [8 * n] := by
    rw [lines_paddedProgram, entries, entries_append, entries_map_word, wordsOf_map_word,
      List.length_map, List.length_range', Nat.zero_add]
    rfl
  rw [entry_of_encode ho, entry_of_ofProgram ha, hentries]
  rfl

/-- **An accepted source whose entry is out of reach.** -/
theorem entry_out_of_reach : ∃ p a o, parse nameless (paddedSource 8192) none = .ok p ∧
    ofProgram p [] none = .ok a ∧ a.ok = true ∧ a.encode none = .ok o ∧
      o.entry = some 65536 :=
  entry_of_paddedSource le_rfl

end Analysis

end AluVM
