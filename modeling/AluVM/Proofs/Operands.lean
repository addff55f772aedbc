import AluVM.Proofs.Layout
import AluVM.Proofs.Steps

/-! # The instructions of an accepted program

The second pass checks every instruction against its template. If it finds no error, every
instruction is in the result, at its own offset, and its operands are what its slots demand
(`Sound`). What an operand stands for is the relation `Classified`, with one case a way to fill a
slot; `checkOperand_classified` ties the checker to it.

The pass adds symbols to the table, but only routines of libraries (`Scope.Over`), so that a name
of any other kind means the same from the first instruction to the last. -/

namespace AluVM.Analysis

open Syntax (Operand Instruction Program Immediate DataDecl)

/-- What an operand of a source stands for in a slot, given the symbols of the program. -/
inductive Classified (t : SymbolTable) : Slot → Operand → Operand → Prop where
  | register {banks : List Bank} {sets : List String} {token : String} {index : Int}
      {set : RegisterSet} (named : RegisterSet.named? token = some set)
      (bank : set.bank ∈ banks) (allowed : sets = [] ∨ set.name ∈ sets)
      (inside : set.hasIndex index = true) :
      Classified t (.register banks sets) (.register token index) (.register set.name index)
  | literal {bits : Nat} {signed : Bool} {i : Immediate}
      (fits : Integer.fits i.value bits signed = true) :
      Classified t (.immediate bits signed) (.immediate i) (.immediate ⟨i.value, i.text, bits⟩)
  | constant {bits : Nat} {signed : Bool} {name : String} {s : Symbol}
      (declared : t.get? .const name = some s)
      (fits : Integer.fits (s.value.getD 0) bits signed = true) :
      Classified t (.immediate bits signed) (.symbol name)
        (.immediate ⟨s.value.getD 0, name, bits⟩)
  | label {name : String} {s : Symbol} (declared : t.get? .code name = some s) :
      Classified t .label (.symbol name) (.label name)
  | datum {name : String} {s : Symbol} (declared : t.get? .data name = some s) :
      Classified t .data (.symbol name) (.datum name)
  | call {library routine : String} :
      Classified t .foreign (.call library routine) (.call library routine)

/-- Tables that agree outside the routines of libraries classify alike. -/
theorem Classified.congr {t t' : SymbolTable}
    (h : ∀ space name, space ≠ .foreign → t'.get? space name = t.get? space name) {slot : Slot}
    {operand meaning : Operand} (hc : Classified t slot operand meaning) :
    Classified t' slot operand meaning := by
  cases hc with
  | register named bank allowed inside => exact .register named bank allowed inside
  | literal fits => exact .literal fits
  | constant declared fits => exact .constant ((h _ _ (by decide)).trans declared) fits
  | label declared => exact .label ((h _ _ (by decide)).trans declared)
  | datum declared => exact .datum ((h _ _ (by decide)).trans declared)
  | call => exact .call

/-! ### One operand -/

theorem lookup_eq_ok {s : Scope} {name : String} {kind : SymbolKind} {symbol : Symbol} :
    s.lookup name kind = .ok symbol ↔ s.symbols.get? kind.space name = some symbol := by
  unfold Scope.lookup
  split <;> simp_all

theorem checkRegister_classified {t : SymbolTable} {mnemonic : String} {banks : List Bank}
    {sets : List String} {operand meaning : Operand}
    (h : Scope.checkRegister mnemonic banks sets operand = .ok meaning) :
    Classified t (.register banks sets) operand meaning := by
  cases operand with
  | register token index =>
    simp only [Scope.checkRegister, RegisterSet.named, RegisterSet.checkIndex] at h
    rcases hn : RegisterSet.named? token with _ | set
    · simp [hn] at h
    · simp only [hn] at h
      split_ifs at h with hbank hsets hindex
      cases h
      refine .register hn hbank ?_ hindex
      simpa [or_iff_not_imp_left] using hsets
  | _ => cases h

theorem checkValue_eq_ok {bits : Nat} {signed : Bool} {value : Int} {text : String}
    {meaning : Operand} (h : Scope.checkValue bits signed value text = .ok meaning) :
    Integer.fits value bits signed = true ∧ meaning = .immediate ⟨value, text, bits⟩ := by
  unfold Scope.checkValue at h
  split_ifs at h with hfits
  cases h
  exact ⟨hfits, rfl⟩

theorem checkImmediate_classified {s : Scope} {mnemonic : String} {bits : Nat} {signed : Bool}
    {operand meaning : Operand} (h : s.checkImmediate mnemonic bits signed operand = .ok meaning) :
    Classified s.symbols (.immediate bits signed) operand meaning := by
  cases operand with
  | immediate i =>
    obtain ⟨hfits, rfl⟩ := checkValue_eq_ok h
    exact .literal hfits
  | symbol name =>
    obtain ⟨symbol, hs, h⟩ := Steps.bind_eq_ok.mp h
    obtain ⟨hfits, rfl⟩ := checkValue_eq_ok h
    exact .constant (lookup_eq_ok.mp hs) hfits
  | _ => cases h

theorem checkLabel_classified {s : Scope} {mnemonic : String} {operand meaning : Operand}
    (h : s.checkLabel mnemonic operand = .ok meaning) :
    Classified s.symbols .label operand meaning := by
  cases operand with
  | symbol name =>
    obtain ⟨symbol, hs, h⟩ := Steps.bind_eq_ok.mp h
    cases h
    exact .label (lookup_eq_ok.mp hs)
  | _ => cases h

theorem checkDatum_classified {s : Scope} {mnemonic : String} {operand meaning : Operand}
    (h : s.checkDatum mnemonic operand = .ok meaning) :
    Classified s.symbols .data operand meaning := by
  cases operand with
  | symbol name =>
    obtain ⟨symbol, hs, h⟩ := Steps.bind_eq_ok.mp h
    cases h
    exact .datum (lookup_eq_ok.mp hs)
  | _ => cases h

theorem checkCall_classified {s : Scope} {mnemonic : String} {operand meaning : Operand}
    (h : s.checkCall mnemonic operand = .ok meaning) :
    Classified s.symbols .foreign operand meaning := by
  cases operand with
  | call library routine => cases h; exact .call
  | _ => cases h

/-- **An operand that is accepted is classified.** -/
theorem checkOperand_classified {s : Scope} {mnemonic : String} {slot : Slot}
    {operand meaning : Operand} (h : s.checkOperand mnemonic operand slot = .ok meaning) :
    Classified s.symbols slot operand meaning := by
  cases slot <;> simp only [Scope.checkOperand] at h
  case register banks sets => exact checkRegister_classified h
  case immediate bits signed => exact checkImmediate_classified h
  case label => exact checkLabel_classified h
  case data => exact checkDatum_classified h
  case foreign => exact checkCall_classified h

/-! ### A refused operand -/

theorem missing_severity (s : Scope) (name : String) (kind : SymbolKind) :
    (s.missing name kind).severity = .error := by
  unfold Scope.missing
  split <;> rfl

theorem lookup_error {s : Scope} {name : String} {kind : SymbolKind} {c : Cause}
    (h : s.lookup name kind = .error c) : c.severity = .error := by
  unfold Scope.lookup at h
  split at h
  · cases h
  · cases h
    exact missing_severity s name kind

theorem checkRegister_error {mnemonic : String} {banks : List Bank} {sets : List String}
    {operand : Operand} {c : Cause}
    (h : Scope.checkRegister mnemonic banks sets operand = .error c) : c.severity = .error := by
  unfold Scope.checkRegister at h
  split at h
  · split at h
    · cases h; rfl
    · split_ifs at h
      · cases h; rfl
      · split at h <;> cases h
        rfl
      · cases h; rfl
  · cases h; rfl

theorem checkValue_error {bits : Nat} {signed : Bool} {value : Int} {text : String} {c : Cause}
    (h : Scope.checkValue bits signed value text = .error c) : c.severity = .error := by
  unfold Scope.checkValue at h
  split_ifs at h
  cases h
  rfl

/-- The cause of a refused operand is an error. -/
theorem checkOperand_error {s : Scope} {mnemonic : String} {slot : Slot} {operand : Operand}
    {c : Cause} (h : s.checkOperand mnemonic operand slot = .error c) : c.severity = .error := by
  cases slot <;> simp only [Scope.checkOperand] at h
  case register banks sets => exact checkRegister_error h
  case immediate bits signed =>
    unfold Scope.checkImmediate at h
    split at h
    · exact checkValue_error h
    · rename_i name
      rcases hs : s.lookup name .constant with c' | symbol
      · rw [hs] at h
        cases h
        exact lookup_error hs
      · rw [hs] at h
        exact checkValue_error h
    · cases h; rfl
  case label =>
    unfold Scope.checkLabel at h
    split at h
    · rename_i name
      rcases hs : s.lookup name .localLabel with c' | symbol <;> rw [hs] at h <;> cases h
      exact lookup_error hs
    · cases h; rfl
    · cases h; rfl
  case data =>
    unfold Scope.checkDatum at h
    split at h
    · rename_i name
      rcases hs : s.lookup name .dataSymbol with c' | symbol <;> rw [hs] at h <;> cases h
      exact lookup_error hs
    · cases h; rfl
  case foreign =>
    unfold Scope.checkCall at h
    split at h <;> cases h <;> rfl

/-! ### The scope -/

/-- The symbol is a routine of a library. -/
def IsImport (x : Symbol) : Prop :=
  ∃ library routine pos, x = ⟨Operand.callName library routine, .importedExternal, none, pos⟩

/-- The scope has the symbols and libraries of a layout and, beyond them, only routines of
libraries and libraries without a fixed id. -/
structure Scope.Over (l : Layout) (s : Scope) : Prop where
  symbols : ∃ imports : List Symbol, s.symbols.toList = l.symbols.toList ++ imports ∧
    ∀ x ∈ imports, IsImport x
  distinct : l.symbols.Distinct → s.symbols.Distinct
  libraries : ∀ x ∈ s.libraries, x ∈ l.libraries ∨ x.2 = none

theorem Scope.Over.get? {l : Layout} {s : Scope} (h : s.Over l) (space : Namespace)
    (name : String) (hspace : space ≠ .foreign) :
    s.symbols.get? space name = l.symbols.get? space name := by
  obtain ⟨imports, hsymbols, himports⟩ := h.symbols
  have hnew : s.symbols.newestFirst = imports.reverse ++ l.symbols.newestFirst := by
    have := congrArg List.reverse hsymbols
    simpa [SymbolTable.toList] using this
  have hnone : imports.reverse.find? (Symbol.isAt space name) = none := by
    rw [List.find?_eq_none]
    intro x hx hat
    obtain ⟨library, routine, pos, rfl⟩ := himports x (List.mem_reverse.mp hx)
    exact hspace (SymbolTable.isAt_iff.mp hat).1.symm
  rw [SymbolTable.get?, hnew, List.find?_append, hnone, Option.none_or, SymbolTable.get?]

theorem Scope.Over.addCall {l : Layout} {s : Scope} (h : s.Over l) (library routine : String)
    (pos : Position) : (s.addCall library routine pos).Over l := by
  refine ⟨?_, fun hl => SymbolTable.declare_distinct (h.distinct hl), ?_⟩
  · obtain ⟨imports, hsymbols, himports⟩ := h.symbols
    simp only [Scope.addCall, SymbolTable.declare]
    split
    · exact ⟨imports, hsymbols, himports⟩
    · let new : Symbol := ⟨Operand.callName library routine, .importedExternal, none, some pos⟩
      refine ⟨imports ++ [new], ?_, ?_⟩
      · rw [SymbolTable.toList, List.reverse_cons, ← SymbolTable.toList, hsymbols,
          List.append_assoc]
      · intro x hx
        rcases List.mem_append.mp hx with hx | hx
        · exact himports x hx
        · rw [List.mem_singleton.mp hx]
          exact ⟨library, routine, some pos, rfl⟩
  · intro x hx
    simp only [Scope.addCall] at hx
    split_ifs at hx
    · exact h.libraries x hx
    · rcases List.mem_append.mp hx with hx | hx
      · exact h.libraries x hx
      · exact Or.inr (by rw [List.mem_singleton.mp hx])

theorem Scope.Over.addOperand {l : Layout} {s : Scope} (h : s.Over l) (pos : Position)
    (slot : Slot) (operand : Operand) : (s.addOperand pos slot operand).Over l := by
  unfold Scope.addOperand
  split
  · exact h.addCall ..
  · exact h

/-- Checking operands keeps the scope over its layout, whatever the operands are. -/
theorem Scope.Over.checkOperands {l : Layout} {i : Instruction} :
    ∀ {pairs : List (Operand × Slot)} {s : Scope}, s.Over l → (s.checkOperands i pairs).1.Over l
  | [], _, h => h
  | (operand, slot) :: _, _, h => (h.addOperand i.pos slot operand).checkOperands

/-- Operands of which none is refused are all classified. -/
theorem checkOperands_classified {l : Layout} {i : Instruction} :
    ∀ {pairs : List (Operand × Slot)} {s : Scope}, s.Over l →
      (s.checkOperands i pairs).2.filterMap causeOf? = [] →
      List.Forall₂ (fun pair meaning => Classified l.symbols pair.2 pair.1 meaning) pairs
        ((s.checkOperands i pairs).2.filterMap operandOf?)
  | [], _, _, _ => .nil
  | (operand, slot) :: pairs, s, hs, hnone => by
    rcases hr : s.checkOperand i.mnemonic operand slot with cause | meaning
    · simp [Scope.checkOperands, hr, causeOf?] at hnone
    · simp only [Scope.checkOperands, hr, List.filterMap_cons, causeOf?, operandOf?] at hnone ⊢
      refine .cons ?_ (checkOperands_classified (hs.addOperand i.pos slot operand) hnone)
      exact (checkOperand_classified hr).congr fun space name h => (hs.get? space name h).symm

/-! ### One instruction -/

/-- A placed instruction is the one that the source writes, with its template and the meanings of
its operands. -/
structure Sound (t : SymbolTable) (mask : Mask) (offset : Nat) (i : Instruction) (q : Placed) :
    Prop where
  spec : Spec.named? i.mnemonic = some q.spec
  offset : q.offset = offset
  extension : mask.has q.spec.extension = true
  count : i.operands.length = q.spec.slots.length
  operands : List.Forall₂ (fun pair meaning => Classified t pair.2 pair.1 meaning)
    (i.operands.zip q.spec.slots) q.operands

theorem clean_map_error {causes : List Cause} {pos : Option Position}
    (herror : ∀ c ∈ causes, c.severity = .error) (h : Clean (causes.map fun c => ⟨c, pos⟩)) :
    causes = [] := by
  refine List.eq_nil_iff_forall_not_mem.mpr fun c hc => ?_
  have := h ⟨c, pos⟩ (List.mem_map.mpr ⟨c, hc, rfl⟩)
  simp [Finding.isError, herror c hc] at this

theorem checkOperands_error {i : Instruction} : ∀ {pairs : List (Operand × Slot)} {s : Scope},
    ∀ c ∈ (s.checkOperands i pairs).2.filterMap causeOf?, c.severity = .error
  | [], _, c, hc => by simp [Scope.checkOperands] at hc
  | (operand, slot) :: pairs, s, c, hc => by
    rcases hr : s.checkOperand i.mnemonic operand slot with cause | meaning
    · simp only [Scope.checkOperands, hr, List.filterMap_cons, causeOf?] at hc
      rcases List.mem_cons.mp hc with rfl | hc
      · exact checkOperand_error hr
      · exact checkOperands_error c hc
    · simp only [Scope.checkOperands, hr, List.filterMap_cons, causeOf?] at hc
      exact checkOperands_error c hc

theorem extensionCauses_error {mask : Mask} {i : Instruction} {spec : Spec} :
    ∀ c ∈ extensionCauses mask i spec, c.severity = .error := by
  unfold extensionCauses
  split_ifs <;> simp [Cause.severity]

theorem setCauses_error {i : Instruction} {spec : Spec} {operands : List Operand} :
    ∀ c ∈ setCauses i spec operands, c.severity = .error := by
  unfold setCauses
  split_ifs <;> simp [Cause.severity]

namespace Progress

/-- Checking an instruction keeps the scope over its layout, whatever the instruction is. -/
theorem check_over {l : Layout} {mask : Mask} {p : Progress} (hp : p.scope.Over l)
    (i : Instruction) : (check mask p i).1.scope.Over l := by
  unfold check
  split
  · exact hp
  · split_ifs
    · exact hp
    · exact hp.checkOperands

theorem check_offset {mask : Mask} {p : Progress} (i : Instruction) :
    (check mask p i).1.offset = p.offset := by
  unfold check
  split
  · rfl
  · split_ifs <;> rfl

theorem check_error {mask : Mask} {p : Progress} {i : Instruction} :
    ∀ c ∈ (check mask p i).2, c.severity = .error := by
  unfold check
  split
  · simp [Cause.severity]
  · split_ifs
    · intro c hc
      rcases List.mem_append.mp hc with hc | hc
      · exact extensionCauses_error c hc
      · rw [List.mem_singleton.mp hc]
        rfl
    · intro c hc
      simp only [addSpec] at hc
      split_ifs at hc
      · exact setCauses_error c hc
      · rcases List.mem_append.mp hc with hc | hc
        · exact extensionCauses_error c hc
        · exact checkOperands_error c hc

/-- **An instruction without an error** is placed, and it is sound. -/
theorem check_sound {l : Layout} {mask : Mask} {p : Progress} {i : Instruction}
    (hp : p.scope.Over l) (h : (check mask p i).2 = []) :
    ∃ q, (check mask p i).1.code = q :: p.code ∧ Sound l.symbols mask p.offset i q := by
  unfold check at h ⊢
  split at h
  · simp at h
  · rename_i spec hspec
    split_ifs at h ⊢ with hcount
    · simp at h
    · simp only [addSpec] at h ⊢
      rw [if_pos (List.isEmpty_iff.mpr h)]
      split_ifs at h with hbefore
      · rw [List.isEmpty_iff, List.append_eq_nil_iff] at hbefore
        have hext : mask.has spec.extension = true := by
          by_contra hext
          simp [extensionCauses, hext] at hbefore
        exact ⟨_, rfl, hspec, rfl, hext, not_not.mp hcount,
          checkOperands_classified hp hbefore.2⟩
      · exact absurd h (by simpa using hbefore)

end Progress

/-! ### All instructions -/

/-- The state of the pass when the instructions in `done` are checked. -/
structure Checked (l : Layout) (mask : Mask) (done : List Instruction) (p : Progress) : Prop where
  scope : p.scope.Over l
  offset : p.offset = wordSize * done.length
  code : List.Forall₂ (fun x q => Sound l.symbols mask (wordSize * x.2) x.1 q) done.zipIdx
    p.code.reverse

theorem add_checked {l : Layout} {mask : Mask} {done : List Instruction} {p : Progress}
    {i : Instruction} (hp : Checked l mask done p) (h : Clean (p.add mask i).2) :
    Checked l mask (done ++ [i]) (p.add mask i).1 := by
  have hover : (Progress.check mask p i).1.scope.Over l := Progress.check_over hp.scope i
  have hoffset : (Progress.check mask p i).1.offset = p.offset := Progress.check_offset i
  have hnil : (Progress.check mask p i).2 = [] := clean_map_error Progress.check_error h
  obtain ⟨q, hq, hsound⟩ := Progress.check_sound hp.scope hnil
  simp only [Progress.add]
  generalize Progress.check mask p i = next at *
  refine ⟨hover, ?_, ?_⟩
  · simp [hoffset, hp.offset, Nat.mul_add]
  · rw [hq, List.reverse_cons, List.zipIdx_append]
    refine List.rel_append hp.code (.cons ?_ .nil)
    rw [hp.offset] at hsound
    simpa using hsound

/-! ### The whole analysis -/

/-- The bytes that a declaration of data takes, with what is wrong with it. -/
def measured (d : DataDecl) : Nat × List Cause := (datumSize d).toOption.getD (0, [])

/-- The data of a program with their measures. -/
def sized (p : Program) : List (DataDecl × Nat × List Cause) := p.data.map fun d => (d, measured d)

/-- **What is known about an accepted program**: its symbols in order, its instructions one word
behind the other, and its data one behind the other. -/
structure Accepted (p : Program) (a : Analysis) : Prop where
  symbols : ∃ imports : List Symbol, a.symbols.toList = p.constants.map constantSymbol ++
    (placements 0 (sized p)).map PlacedDatum.symbol ++ marks 0 p.lines ++ imports ∧
    ∀ x ∈ imports, IsImport x
  distinct : a.symbols.Distinct
  reach : ∀ s ∈ a.symbols.toList, s.kind ≠ .constant → ∀ v ∈ s.value, v ≤ maxOffset
  code : List.Forall₂ (fun x q => Sound a.symbols a.mask (wordSize * x.2) x.1 q)
    p.instructions.zipIdx a.code
  codeSize : a.codeSize = wordSize * p.instructions.length
  codeSize_le : a.codeSize ≤ maxSegment
  data : a.data = placements 0 (sized p)
  measures : ∀ d ∈ p.data, datumSize d = .ok (measured d)
  measures_sound : ∀ d ∈ p.data, ∀ c ∈ (measured d).2, c.severity ≠ .error
  room_le : roomOf (sized p) ≤ maxSegment
  mask : a.mask.Known
  pins : ∀ x ∈ a.libraries, ∀ id ∈ x.2, ContentId.isId id = true

theorem mapM_datumSize {ds : List DataDecl} {sizes : List (Nat × List Cause)}
    (h : ds.mapM datumSize = .ok sizes) :
    sizes = ds.map measured ∧ ∀ d ∈ ds, datumSize d = .ok (measured d) := by
  have hall : List.Forall₂ (fun d x => measured d = x ∧ datumSize d = .ok (measured d)) ds sizes :=
    (Steps.mapM_eq_ok.mp h).imp fun d x hx => by simp [measured, hx, Except.toOption]
  refine ⟨?_, fun d hd => ?_⟩
  · have := hall.imp fun d x hx => hx.1
    rwa [← List.forall₂_map_left_iff, List.forall₂_eq_eq_eq, eq_comm] at this
  · obtain ⟨x, -, hx⟩ := Steps.exists_mem_right hall d hd
    exact hx.2

/-- **The analysis of a program without errors.** -/
theorem ofProgram_accepted {p : Program} {extra : List String} {file : Option String}
    {a : Analysis} (h : ofProgram p extra file = .ok a) (hok : a.ok = true) : Accepted p a := by
  obtain ⟨sizes, hsizes, h⟩ := Steps.bind_eq_ok.mp h
  obtain ⟨rfl, hmeasures⟩ := mapM_datumSize hsizes
  have hzip : p.data.zip (p.data.map measured) = sized p := List.map_prod_left_eq_zip.symm
  have hlaid : Clean (Layout.ofProgram p extra (p.data.map measured)).2 → _ :=
    Layout.ofProgram_laid
  generalize Layout.ofProgram p extra (p.data.map measured) = l at h hlaid
  have hrun : Clean (gather (Progress.add l.1.mask) ⟨⟨l.1.symbols, l.1.libraries, []⟩, 0, []⟩
      p.instructions).2 → Checked l.1 l.1.mask p.instructions _ :=
    gather_induction (Checked l.1 l.1.mask)
      ⟨⟨⟨[], by simp, by simp⟩, id, fun _ => Or.inl⟩, rfl, .nil⟩
      fun done i rest s _ hs hclean => add_checked hs hclean
  simp only at h
  generalize gather (Progress.add l.1.mask) ⟨⟨l.1.symbols, l.1.libraries, []⟩, 0, []⟩
    p.instructions = run at h hrun
  split_ifs at h with hoverlong
  · cases h
  · cases h
    rw [ok_iff_clean, clean_append, clean_append] at hok
    obtain ⟨⟨hdeclared, hchecked⟩, -⟩ := hok
    have hlaid := hlaid hdeclared
    have hrun := hrun hchecked
    obtain ⟨imports, hsymbols, himports⟩ := hrun.scope.symbols
    have hmem : ∀ x, x ∈ sized p → x ∈ p.data.zip (p.data.map measured) := by rw [hzip]; simp
    refine ⟨⟨imports, ?_, himports⟩, hrun.scope.distinct hlaid.distinct, ?_, ?_, hlaid.codeSize,
      hlaid.codeSize_le, ?_, hmeasures, ?_, ?_, hlaid.mask, ?_⟩
    · rw [hsymbols, hlaid.symbols, hzip]
    · intro s hs hkind v hv
      rw [hsymbols] at hs
      rcases List.mem_append.mp hs with hs | hs
      · exact hlaid.reach s hs hkind v hv
      · obtain ⟨library, routine, pos, rfl⟩ := himports s hs
        simp at hv
    · refine hrun.code.imp fun x q hq => { hq with operands := ?_ }
      exact hq.operands.imp fun _ _ hc => hc.congr hrun.scope.get?
    · rw [hlaid.data, hzip]
    · intro d hd
      exact hlaid.sound (d, measured d) (hmem _ (List.mem_map.mpr ⟨d, hd, rfl⟩))
    · rw [← hzip, ← hlaid.dataSize]
      exact hlaid.dataSize_le
    · intro x hx id hid
      rcases hrun.scope.libraries x hx with hx | hnone
      · exact hlaid.pins x hx id hid
      · simp [hnone] at hid

end AluVM.Analysis
