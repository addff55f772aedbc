import AluVM.Proofs.RecordedCalls

/-! # Reports on one instruction do not depend on the others

Checking an instruction changes what the second pass knows: routines of libraries are declared,
libraries become known, and some are in use from then on. None of this shows in the reports on a
later instruction, since a name in a source has no dot and the routines of libraries do
(`Scope.Over.checkOperand`). So an instruction is reported on as if it came first
(`Progress.add_eq_reports`), and the reports on it stay what they are when all other instructions
are replaced by some that do nothing (`Program.isolate`). -/

namespace AluVM

open Syntax

variable {names : CharacterNames}

/-! ### Programs with other instructions -/

namespace Syntax

/-- Nodes with other instructions: the `n`-th instruction `i` becomes `f n i`. -/
def mapNodes (f : Nat → Instruction → Instruction) : List Node → List Node
  | [] => []
  | .label name pos :: ns => .label name pos :: mapNodes f ns
  | .instruction i :: ns => .instruction (f 0 i) :: mapNodes (fun n => f (n + 1)) ns

/-- Parts of a program with other instructions. -/
def mapItems (f : Nat → Instruction → Instruction) : List Item → List Item
  | [] => []
  | .routine r :: items => .routine { r with body := mapNodes f r.body } ::
      mapItems (fun n => f (n + (wordsOf r.lines).length)) items
  | .extension d :: items => .extension d :: mapItems f items
  | .library d :: items => .library d :: mapItems f items
  | .constant d :: items => .constant d :: mapItems f items
  | .data d :: items => .data d :: mapItems f items

/-- A program with other instructions, and everything else as it was. -/
def Program.mapInstructions (f : Nat → Instruction → Instruction) (p : Program) : Program :=
  { p with items := mapItems f p.items }

/-- The instruction that does nothing, in the place of another one. -/
def Instruction.silent (i : Instruction) : Instruction :=
  { i with mnemonic := "nop", operands := [] }

/-- **The program with instructions that do nothing in place of all but one.** -/
def Program.isolate (k : Nat) (p : Program) : Program :=
  p.mapInstructions fun n i => if n = k then i else i.silent

/-- Lines with other instructions. -/
def mapLines (f : Nat → Instruction → Instruction) : List CodeLine → List CodeLine
  | [] => []
  | .entry pos :: ls => .entry pos :: mapLines f ls
  | .mark kind name pos :: ls => .mark kind name pos :: mapLines f ls
  | .word i :: ls => .word (f 0 i) :: mapLines (fun n => f (n + 1)) ls

theorem mapLines_append (f : Nat → Instruction → Instruction) (xs ys : List CodeLine) :
    mapLines f (xs ++ ys) =
      mapLines f xs ++ mapLines (fun n => f (n + (wordsOf xs).length)) ys := by
  induction xs generalizing f with
  | nil => rfl
  | cons line xs ih =>
    cases line with
    | entry pos => exact congrArg (.entry pos :: ·) (ih f)
    | mark kind name pos => exact congrArg (.mark kind name pos :: ·) (ih f)
    | word i =>
      refine congrArg (.word (f 0 i) :: ·) ((ih _).trans ?_)
      have hlength : (wordsOf (.word i :: xs)).length = (wordsOf xs).length + 1 := rfl
      simp only [hlength, Nat.add_assoc]
      rfl

theorem map_line_mapNodes (f : Nat → Instruction → Instruction) (ns : List Node) :
    (mapNodes f ns).map Node.line = mapLines f (ns.map Node.line) := by
  induction ns generalizing f with
  | nil => rfl
  | cons node ns ih =>
    cases node with
    | label name pos => exact congrArg (CodeLine.mark .localLabel name pos :: ·) (ih f)
    | instruction i => exact congrArg (CodeLine.word (f 0 i) :: ·) (ih _)

theorem lines_mapNodes (f : Nat → Instruction → Instruction) (r : Routine) :
    Routine.lines { r with body := mapNodes f r.body } = mapLines f r.lines := by
  have hopen : ∀ ls, mapLines f (r.opening :: ls) = r.opening :: mapLines f ls := by
    intro ls
    unfold Routine.opening
    split <;> rfl
  rw [Routine.lines, Routine.lines, hopen, map_line_mapNodes]
  rfl

theorem lines_mapInstructions (f : Nat → Instruction → Instruction) (p : Program) :
    (p.mapInstructions f).lines = mapLines f p.lines := by
  obtain ⟨items, file⟩ := p
  simp only [Program.lines, Program.routines, Program.mapInstructions]
  induction items generalizing f with
  | nil => rfl
  | cons item items ih =>
    cases item with
    | routine r =>
      simp only [mapItems, List.filterMap_cons, List.flatMap_cons]
      rw [mapLines_append, lines_mapNodes, ih]
    | _ => exact ih f

/-- What says nothing about routines says the same of the parts. -/
theorem filterMap_mapItems {β : Type} {g : Item → Option β} (hg : ∀ r, g (.routine r) = none)
    (f : Nat → Instruction → Instruction) (items : List Item) :
    (mapItems f items).filterMap g = items.filterMap g := by
  induction items generalizing f with
  | nil => rfl
  | cons item items ih =>
    cases item <;> simp [mapItems, List.filterMap_cons, hg, ih]

section Declarations
variable (f : Nat → Instruction → Instruction) (p : Program)

@[simp] theorem extensions_mapInstructions : (p.mapInstructions f).extensions = p.extensions :=
  filterMap_mapItems (fun _ => rfl) f p.items

@[simp] theorem libraries_mapInstructions : (p.mapInstructions f).libraries = p.libraries :=
  filterMap_mapItems (fun _ => rfl) f p.items

@[simp] theorem constants_mapInstructions : (p.mapInstructions f).constants = p.constants :=
  filterMap_mapItems (fun _ => rfl) f p.items

@[simp] theorem data_mapInstructions : (p.mapInstructions f).data = p.data :=
  filterMap_mapItems (fun _ => rfl) f p.items

theorem wordsOf_mapLines (ls : List CodeLine) :
    wordsOf (mapLines f ls) = (wordsOf ls).mapIdx f := by
  induction ls generalizing f with
  | nil => rfl
  | cons line ls ih =>
    cases line with
    | word i =>
      have hwords : wordsOf (.word i :: ls) = i :: wordsOf ls := rfl
      rw [hwords, List.mapIdx_cons, ← ih]
      rfl
    | _ => exact ih f

theorem instructions_mapInstructions :
    (p.mapInstructions f).instructions = p.instructions.mapIdx f := by
  rw [← wordsOf_lines, lines_mapInstructions, wordsOf_mapLines, wordsOf_lines]

end Declarations

theorem instructions_isolate (k : Nat) (p : Program) : (p.isolate k).instructions =
    p.instructions.mapIdx fun n i => if n = k then i else i.silent :=
  instructions_mapInstructions ..

end Syntax

namespace Analysis

/-! ### The first pass -/

/-- The layout of code does not depend on what its instructions are. -/
theorem Layout.gather_mapLines (f : Nat → Instruction → Instruction) (l : Layout)
    (ls : List CodeLine) : gather addLine l (mapLines f ls) = gather addLine l ls := by
  induction ls generalizing f l with
  | nil => rfl
  | cons line ls ih =>
    cases line with
    | word i =>
      rw [mapLines, gather_cons, gather_cons]
      simp only [addLine, ih]
    | _ => rw [mapLines, gather_cons, gather_cons, ih]

theorem firstPass_mapInstructions (f : Nat → Instruction → Instruction) (p : Program)
    (extra : List String) : firstPass (p.mapInstructions f) extra = firstPass p extra := by
  have hlines : (p.mapInstructions f).routines.flatMap Routine.lines = mapLines f p.lines :=
    lines_mapInstructions f p
  simp only [firstPass, Layout.ofProgram, Layout.gather_addRoutine, hlines, Layout.gather_mapLines,
    extensions_mapInstructions, libraries_mapInstructions, constants_mapInstructions,
    data_mapInstructions]
  rfl

/-! ### The second pass -/

theorem dot_mem_of_isImport {x : Symbol} (h : IsImport x) : '.' ∈ x.name.toList := by
  obtain ⟨library, routine, pos, rfl⟩ := h
  simp [Operand.callName]

section Over
variable {l : Layout} {s : Scope} (h : s.Over l)
include h

/-- Calls that were recorded have no part in why a name is not found. -/
theorem Scope.Over.missing {name : String} (hname : IsName name) (demanded : SymbolKind) :
    s.missing name demanded = l.start.scope.missing name demanded := by
  obtain ⟨imports, hsymbols, himports⟩ := h.symbols
  have hfind : s.symbols.find name = l.symbols.find name := by
    have hnone : imports.filter (·.name = name) = [] := by
      refine List.filter_eq_nil_iff.mpr fun x hx hx' => ?_
      rw [decide_eq_true_eq] at hx'
      exact hname.not_dot (hx' ▸ dot_mem_of_isImport (himports x hx))
    rw [SymbolTable.find, hsymbols, List.filter_append, hnone, List.append_nil, SymbolTable.find]
  have hpool : s.symbols.toList.filter (·.kind ≠ .importedExternal) =
      l.symbols.toList.filter (·.kind ≠ .importedExternal) := by
    have hnone : imports.filter (·.kind ≠ .importedExternal) = [] := by
      refine List.filter_eq_nil_iff.mpr fun x hx => ?_
      obtain ⟨library, routine, pos, rfl⟩ := himports x hx
      simp
    rw [hsymbols, List.filter_append, hnone, List.append_nil]
  simp only [Scope.missing, Layout.start, hfind, hpool]

theorem Scope.Over.lookup {name : String} (hname : IsName name) {demanded : SymbolKind}
    (hspace : demanded.space ≠ .foreign) :
    s.lookup name demanded = l.start.scope.lookup name demanded := by
  simp only [Scope.lookup, h.get? _ name hspace, h.missing hname]
  rfl

/-- **An operand is checked as if nothing had been checked before.** -/
theorem Scope.Over.checkOperand {operand : Operand} (hoperand : operand.Written)
    (mnemonic : String) (slot : Slot) : s.checkOperand mnemonic operand slot =
      l.start.scope.checkOperand mnemonic operand slot := by
  have hconst : SymbolKind.constant.space ≠ .foreign := by decide
  have hlabel : SymbolKind.localLabel.space ≠ .foreign := by decide
  have hdatum : SymbolKind.dataSymbol.space ≠ .foreign := by decide
  have hcode := fun name => h.get? .code name (by decide)
  cases operand with
  | symbol name =>
    have hname : IsName name := hoperand
    cases slot with
    | register banks sets => rfl
    | immediate bits signed =>
      simp only [Scope.checkOperand, Scope.checkImmediate, h.lookup hname hconst]
    | label => simp only [Scope.checkOperand, Scope.checkLabel, h.lookup hname hlabel]
    | data => simp only [Scope.checkOperand, Scope.checkDatum, h.lookup hname hdatum]
    | foreign =>
      simp only [Scope.checkOperand, Scope.checkCall, hcode]
      rfl
  | _ => cases slot <;> rfl

theorem Scope.Over.checkOperands_eq {i : Instruction} {pairs : List (Operand × Slot)}
    (hpairs : ∀ pair ∈ pairs, pair.1.Written) : (s.checkOperands i pairs).2 =
      pairs.map fun pair => l.start.scope.checkOperand i.mnemonic pair.1 pair.2 := by
  induction pairs generalizing s with
  | nil => rfl
  | cons pair pairs ih =>
    obtain ⟨hfirst, hrest⟩ := List.forall_mem_cons.mp hpairs
    rw [List.map_cons, ← h.checkOperand hfirst, ← ih (h.addOperand i.pos pair.2 pair.1) hrest]
    rfl

end Over

/-- What the second pass reports on an instruction if it comes first. -/
def Layout.reports (l : Layout) (i : Instruction) : List Finding := (l.start.add l.mask i).2

theorem Progress.check_eq {l : Layout} {mask : Mask} {progress : Progress} {i : Instruction}
    (h : progress.scope.Over l) (hi : ∀ o ∈ i.operands, o.Written) :
    (check mask progress i).2 = (check mask l.start i).2 := by
  rcases hspec : Spec.named? i.mnemonic with _ | spec
  · simp only [check, hspec]
  · have hpairs : ∀ pair ∈ i.operands.zip spec.slots, pair.1.Written := fun pair hpair =>
      hi _ (List.of_mem_zip hpair).1
    simp only [check, hspec]
    split_ifs
    · rfl
    · simp only [addSpec, h.checkOperands_eq hpairs, l.over_start.checkOperands_eq hpairs]

/-- **An instruction is reported on as if it came first**, whatever comes before it. -/
theorem Progress.add_eq_reports {l : Layout} {progress : Progress} {i : Instruction}
    (h : progress.scope.Over l) (hi : ∀ o ∈ i.operands, o.Written) :
    (progress.add l.mask i).2 = l.reports i := by
  have hcheck : (check l.mask progress i).2 = _ := check_eq h hi
  simp only [Layout.reports, add, hcheck]

theorem Progress.gather_eq_reports {l : Layout} {is : List Instruction}
    (his : ∀ i ∈ is, ∀ o ∈ i.operands, o.Written) {progress : Progress}
    (h : progress.scope.Over l) :
    (gather (Progress.add l.mask) progress is).2 = is.flatMap l.reports := by
  induction is generalizing progress with
  | nil => rfl
  | cons i is ih =>
    obtain ⟨hi, his⟩ := List.forall_mem_cons.mp his
    rw [gather_cons, List.flatMap_cons, add_eq_reports h hi, ih his (over_add h i)]

/-- **What the second pass reports on the `k`-th instruction of a program**, after those before
it. -/
def reportsOn (p : Program) (extra : List String) (k : Nat) : List Finding :=
  let l := (firstPass p extra).1
  match p.instructions[k]? with
  | some i => ((gather (Progress.add l.mask) l.start (p.instructions.take k)).1.add l.mask i).2
  | none => []

/-- The program writes its operands as a source does. -/
def OperandsWritten (p : Program) : Prop :=
  ∀ i ∈ p.instructions, ∀ o ∈ i.operands, o.Written

section Written
variable {p : Program} (hp : OperandsWritten p) (extra : List String)
include hp

theorem reportsOn_eq {k : Nat} {i : Instruction} (hi : p.instructions[k]? = some i) :
    reportsOn p extra k = (firstPass p extra).1.reports i := by
  simp only [reportsOn, hi]
  exact Progress.add_eq_reports (Progress.over_gather _ (Layout.over_start _))
    (hp i (List.mem_of_getElem? hi))

theorem secondPass_eq_reports :
    (secondPass p extra).2 = p.instructions.flatMap (firstPass p extra).1.reports :=
  Progress.gather_eq_reports hp (Layout.over_start _)

/-- **The second pass reports on one instruction after the other.** -/
theorem secondPass_eq_flatMap : (secondPass p extra).2 =
    (List.range p.instructions.length).flatMap (reportsOn p extra) := by
  have hmap : (List.range p.instructions.length).map (reportsOn p extra) =
      p.instructions.map (firstPass p extra).1.reports := by
    refine List.ext_getElem (by simp) fun k hk _ => ?_
    rw [List.getElem_map, List.getElem_map, List.getElem_range]
    exact reportsOn_eq hp extra (List.getElem?_eq_getElem (by simpa using hk))
  rw [secondPass_eq_reports hp, List.flatMap_def, List.flatMap_def, hmap]

end Written

/-! ### One instruction alone -/

theorem template_nop : ∃ spec, Spec.named? "nop" = some spec ∧ spec.slots = [] ∧
    spec.extension = .alu := by
  obtain ⟨spec, hspec, hparts⟩ := Option.map_eq_some_iff.mp
    (by decide +kernel : (Spec.named? "nop").map (fun spec => (spec.slots, spec.extension)) =
      some ([], .alu))
  exact ⟨spec, hspec, (Prod.mk.inj hparts).1, (Prod.mk.inj hparts).2⟩

/-- There is nothing to report on an instruction that does nothing. -/
theorem reports_silent {l : Layout} (hmask : l.mask.has .alu = true) (i : Instruction) :
    l.reports i.silent = [] := by
  obtain ⟨spec, hspec, hslots, hextension⟩ := template_nop
  have hsets : setsOf [] = [] := by decide +kernel
  simp [Layout.reports, Progress.add, Progress.check, Instruction.silent, hspec, hslots,
    Progress.addSpec, Scope.checkOperands, extensionCauses, hextension, hmask, setCauses, hsets]

theorem calls_silent (i : Instruction) : i.silent.calls = [] := by
  obtain ⟨spec, hspec, hslots, -⟩ := template_nop
  simp [Instruction.calls, Instruction.silent, hspec, hslots]

/-- What silent instructions add nothing to comes from the instruction that is left. -/
theorem flatMap_isolate {β : Type} {g : Instruction → List β}
    (hg : ∀ i : Instruction, g i.silent = []) {p : Program} {k : Nat} {i : Instruction}
    (hi : p.instructions[k]? = some i) : (p.isolate k).instructions.flatMap g = g i := by
  rw [instructions_isolate]
  generalize p.instructions = is at hi
  induction is generalizing k with
  | nil => cases hi
  | cons j is ih =>
    rw [List.mapIdx_cons, List.flatMap_cons]
    rcases k with _ | k
    · cases hi
      have hrest : (is.mapIdx fun n j => if n + 1 = 0 then j else j.silent).flatMap g = [] := by
        refine List.flatMap_eq_nil_iff.mpr fun x hx => ?_
        obtain ⟨n, hn, rfl⟩ := List.mem_mapIdx.mp hx
        exact hg _
      rw [hrest, if_pos rfl, List.append_nil]
    · have hrest := ih (k := k) (by simpa using hi)
      simpa [hg] using hrest

theorem operandsWritten_isolate {p : Program} (hp : OperandsWritten p) (k : Nat) :
    OperandsWritten (p.isolate k) := by
  intro i hi
  rw [instructions_isolate] at hi
  obtain ⟨n, hn, rfl⟩ := List.mem_mapIdx.mp hi
  split_ifs
  · exact hp _ (List.getElem_mem hn)
  · simp [Instruction.silent]

/-! ### Libraries that are not used -/

/-- The reports on the libraries that a program declares and none of some calls uses. -/
def unusedBut (p : Program) (extra : List String) (calls : List (String × String)) :
    List Finding :=
  unusedFindings p (firstPass p extra).1.libraries (calls.map Prod.fst)

theorem unusedFindings_secondPass (p : Program) (extra : List String) :
    unusedFindings p (secondPass p extra).1.scope.libraries (secondPass p extra).1.scope.used =
      unusedBut p extra p.calls := by
  have hrecords := records_secondPass p extra
  obtain ⟨new, hlibraries, hnew⟩ := hrecords.libraries
  have hused : ∀ name, name ∈ (secondPass p extra).1.scope.used ↔
      name ∈ p.calls.map Prod.fst := by
    intro name
    rw [hrecords.used]
    exact or_iff_right List.not_mem_nil
  have hnone : unusedFindings p new (p.calls.map Prod.fst) = [] := by
    refine List.filterMap_eq_nil_iff.mpr fun x hx => ?_
    exact if_pos (hnew x hx)
  have hcongr : ∀ libraries, unusedFindings p libraries (secondPass p extra).1.scope.used =
      unusedFindings p libraries (p.calls.map Prod.fst) := fun libraries => by
    simp only [unusedFindings, hused]
  rw [hcongr, hlibraries, unusedFindings, List.filterMap_append]
  exact (congrArg _ hnone).trans (List.append_nil _)

/-! ### The whole analysis -/

theorem findings_of_ofProgram {p : Program} (hp : OperandsWritten p) {extra : List String}
    {file : Option String} {a : Analysis} (h : ofProgram p extra file = .ok a) :
    a.findings = (firstPass p extra).2 ++
      (List.range p.instructions.length).flatMap (reportsOn p extra) ++
        unusedBut p extra p.calls := by
  rw [(passes_of_ofProgram h).2.2.2, secondPass_eq_flatMap hp, unusedFindings_secondPass]

/-- The findings on a program in which one instruction is left: those of the first pass, and those
on that instruction. -/
theorem found_isolate {p : Program} (hp : OperandsWritten p) (extra : List String) {k : Nat}
    {i : Instruction} (hi : p.instructions[k]? = some i) :
    found (p.isolate k) extra =
      (firstPass p extra).2 ++ reportsOn p extra k ++ unusedBut p extra i.calls := by
  have hfirst : firstPass (p.isolate k) extra = firstPass p extra := firstPass_mapInstructions ..
  have hmask : (firstPass p extra).1.mask.has .alu = true :=
    (Layout.has_ofProgram_mask p extra _ .alu).mpr (.inl rfl)
  have hcalls : (p.isolate k).calls = i.calls := flatMap_isolate calls_silent hi
  have hreports : (secondPass (p.isolate k) extra).2 = reportsOn p extra k := by
    rw [secondPass_eq_reports (operandsWritten_isolate hp k), hfirst, reportsOn_eq hp extra hi]
    exact flatMap_isolate (reports_silent hmask) hi
  have hlibraries : (p.isolate k).libraries = p.libraries := libraries_mapInstructions ..
  have hunused : unusedBut (p.isolate k) extra i.calls = unusedBut p extra i.calls := by
    simp only [unusedBut, hfirst, unusedFindings, hlibraries]
  rw [found_eq, unusedFindings_secondPass, hfirst, hreports, hcalls, hunused]

/-- The analysis of such a program returns if that of the whole program does. -/
theorem exists_ofProgram_isolate {text : String} {file file' : Option String} {p : Program}
    {extra : List String} {a : Analysis} (hparse : parse names text file = .ok p)
    (hanalysis : ofProgram p extra file' = .ok a) {k : Nat} {i : Instruction}
    (hi : p.instructions[k]? = some i) :
    ∃ a', ofProgram (p.isolate k) extra file' = .ok a' ∧ a'.file = a.file ∧
      a'.findings = found (p.isolate k) extra := by
  have hp : OperandsWritten p := fun i hi => (parse_written hparse).instruction hi
  have hgauged := gauged_of_parse hparse
  have hshort : ∀ f ∈ a.findings, f.isOverlong = false := by
    obtain ⟨hshort, -⟩ | ⟨-, herror⟩ := ofProgram_cases hgauged extra file'
    · rw [(ofProgram_found hgauged extra file').2 a hanalysis]
      simpa using hshort
    · cases herror.symm.trans hanalysis
  have hall : (found (p.isolate k) extra).any Finding.isOverlong = false := by
    rw [List.any_eq_false]
    intro f hf
    rw [Bool.not_eq_true]
    rw [found_isolate hp extra hi, List.mem_append, List.mem_append] at hf
    rw [findings_of_ofProgram hp hanalysis] at hshort
    rcases hf with (hf | hf) | hf
    · exact hshort f (List.mem_append_left _ (List.mem_append_left _ hf))
    · have hk : k < p.instructions.length := (List.getElem?_eq_some_iff.mp hi).1
      exact hshort f (List.mem_append_left _ (List.mem_append_right _
        (List.mem_flatMap.mpr ⟨k, List.mem_range.mpr hk, hf⟩)))
    · exact Finding.isOverlong_of_not_isError (clean_unusedFindings _ _ _ f hf)
  have hdata : (p.isolate k).data = p.data := data_mapInstructions ..
  obtain ⟨-, a', ha', hfound⟩ | ⟨hlong, -⟩ := ofProgram_cases (hdata ▸ hgauged) extra file'
  · refine ⟨a', ha', ?_, hfound⟩
    rw [(passes_of_ofProgram ha').1, (passes_of_ofProgram hanalysis).1]
    rfl
  · rw [hall] at hlong
    cases hlong

/-- **The reports on one instruction do not depend on the others.** What the second pass reports is
what it reports on each instruction, in source order, and then the libraries that are not used. What
it reports on an instruction is the same in the program where every other instruction does nothing;
the analysis of that program returns, and finds nothing else. -/
theorem reports_independent {text : String} {file file' : Option String} {p : Program}
    {extra : List String} {a : Analysis} (hparse : parse names text file = .ok p)
    (hanalysis : ofProgram p extra file' = .ok a) :
    a.diagnostics = ((firstPass p extra).2 ++
      (List.range p.instructions.length).flatMap (reportsOn p extra) ++
        unusedBut p extra p.calls).map (Finding.diagnostic a.file) ∧
    ∀ k i, p.instructions[k]? = some i →
      firstPass (p.isolate k) extra = firstPass p extra ∧
      reportsOn (p.isolate k) extra k = reportsOn p extra k ∧
      ∃ a', ofProgram (p.isolate k) extra file' = .ok a' ∧
        a'.diagnostics = ((firstPass p extra).2 ++ reportsOn p extra k ++
          unusedBut p extra i.calls).map (Finding.diagnostic a.file) := by
  have hp : OperandsWritten p := fun i hi => (parse_written hparse).instruction hi
  have hfindings := findings_of_ofProgram hp hanalysis
  refine ⟨congrArg (List.map _) hfindings, fun k i hi => ?_⟩
  have hfirst : firstPass (p.isolate k) extra = firstPass p extra := firstPass_mapInstructions ..
  have hleft : (p.isolate k).instructions[k]? = some i := by
    rw [instructions_isolate, List.getElem?_mapIdx, hi]
    simp
  refine ⟨hfirst, ?_, ?_⟩
  · rw [reportsOn_eq (operandsWritten_isolate hp k) extra hleft, reportsOn_eq hp extra hi, hfirst]
  · obtain ⟨a', ha', hfile, hfound⟩ := exists_ofProgram_isolate hparse hanalysis hi
    refine ⟨a', ha', ?_⟩
    rw [diagnostics, hfile, hfound, found_isolate hp extra hi]

/-- A call that makes a library known, and two jumps to what is not a label. -/
def faultySource : String :=
  ".LIBS\nnet\n.DATA\nhash = u8 1\n.MAIN\ncall std.hash\njmp hash\njmp has\n"

theorem reports_independent_faulty : ∃ p a, parse nameless faultySource none = .ok p ∧
    ofProgram p [] none = .ok a ∧
    (List.range 3).map (fun k => (reportsOn p [] k).map (·.cause)) =
      [[], [.wrongKind "hash" .dataSymbol .localLabel], [.undefinedSymbol "has" ["hash"]]] ∧
    reportsOn (p.isolate 2) [] 2 = reportsOn p [] 2 ∧
    a.diagnostics = ((firstPass p []).2 ++ (List.range p.instructions.length).flatMap
      (reportsOn p []) ++ unusedBut p [] p.calls).map (Finding.diagnostic a.file) := by
  obtain ⟨p, hfilter⟩ := Option.isSome_iff_exists.mp
    (by decide +kernel : ((parse nameless faultySource none).toOption.filter fun p => decide
      ((ofProgram p [] none).toOption.isSome ∧ p.instructions[2]?.isSome ∧
        (List.range 3).map (fun k => (reportsOn p [] k).map (·.cause)) =
          [[], [.wrongKind "hash" .dataSymbol .localLabel],
            [.undefinedSymbol "has" ["hash"]]])).isSome)
  obtain ⟨hp, hparts⟩ := Option.filter_eq_some_iff.mp hfilter
  obtain ⟨hsome, hlast, hcauses⟩ := of_decide_eq_true hparts
  obtain ⟨a, ha⟩ := Option.isSome_iff_exists.mp hsome
  obtain ⟨i, hi⟩ := Option.isSome_iff_exists.mp hlast
  have hparse := Steps.toOption_eq_some.mp hp
  have hanalysis := Steps.toOption_eq_some.mp ha
  obtain ⟨hdiagnostics, hisolate⟩ := reports_independent hparse hanalysis
  exact ⟨p, a, hparse, hanalysis, hcauses, (hisolate 2 i hi).2.1, hdiagnostics⟩

end Analysis

end AluVM
