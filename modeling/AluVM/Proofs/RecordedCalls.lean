import AluVM.Proofs.Acceptance

/-! # The calls that the second pass records

The second pass looks at the operands of an instruction if the instruction exists and has as many
operands as slots. Then it records every routine of a library in a slot for one, whatever else is
wrong with the instruction (`Instruction.calls`). What the recording of calls does to a scope is
said once, for any number of them (`Records`): one call is recorded (`records_addCall`), calls one
after the other are recorded together (`Records.trans`), and so a whole pass records the calls of
its instructions (`records_gather`). -/

namespace AluVM

open Syntax

namespace Syntax

/-- The routine of a library that an operand names in a slot for one. -/
def Operand.callIn? : Operand × Slot → Option (String × String)
  | (.call library routine, .foreign) => some (library, routine)
  | _ => none

/-- **The calls of an instruction** that are recorded, each a library and a routine. -/
def Instruction.calls (i : Instruction) : List (String × String) :=
  match Spec.named? i.mnemonic with
  | some spec =>
    if i.operands.length = spec.slots.length then
      (i.operands.zip spec.slots).filterMap Operand.callIn?
    else []
  | none => []

/-- The calls of a program in source order. -/
def Program.calls (p : Program) : List (String × String) := p.instructions.flatMap Instruction.calls

end Syntax

namespace Analysis

/-- **What the recording of calls does to a scope**: their libraries are in use and known, and their
routines are declared; everything that was there stays. -/
structure Records (cs : List (String × String)) (s s' : Scope) : Prop where
  used : ∀ name, name ∈ s'.used ↔ name ∈ s.used ∨ name ∈ cs.map Prod.fst
  libraries : ∃ new, s'.libraries = s.libraries ++ new ∧ ∀ x ∈ new, x.1 ∈ cs.map Prod.fst
  symbols : ∃ new, s'.symbols.newestFirst = new ++ s.symbols.newestFirst ∧ new.length ≤ cs.length
  declared : ∀ c ∈ cs, ∃ x ∈ s'.symbols.newestFirst,
    x.kind = .importedExternal ∧ x.name = Operand.callName c.1 c.2

theorem Records.refl (s : Scope) : Records [] s s :=
  ⟨by simp, ⟨[], by simp⟩, ⟨[], by simp⟩, by simp⟩

theorem Records.trans {cs cs' : List (String × String)} {s s' s'' : Scope} (h : Records cs s s')
    (h' : Records cs' s' s'') : Records (cs ++ cs') s s'' := by
  obtain ⟨libraries, hlibraries, hnew⟩ := h.libraries
  obtain ⟨libraries', hlibraries', hnew'⟩ := h'.libraries
  obtain ⟨symbols, hsymbols, hlen⟩ := h.symbols
  obtain ⟨symbols', hsymbols', hlen'⟩ := h'.symbols
  refine ⟨fun name => ?_, ⟨libraries ++ libraries', ?_, fun x hx => ?_⟩,
    ⟨symbols' ++ symbols, ?_, ?_⟩, fun c hc => ?_⟩
  · rw [h'.used, h.used, List.map_append, List.mem_append, or_assoc]
  · rw [hlibraries', hlibraries, List.append_assoc]
  · rw [List.map_append, List.mem_append]
    exact (List.mem_append.mp hx).imp (hnew x) (hnew' x)
  · rw [hsymbols', hsymbols, List.append_assoc]
  · rw [List.length_append, List.length_append]
    omega
  · rcases List.mem_append.mp hc with hc | hc
    · obtain ⟨x, hx, hcall⟩ := h.declared c hc
      exact ⟨x, by rw [hsymbols']; exact List.mem_append_right _ hx, hcall⟩
    · exact h'.declared c hc

/-- **One call is recorded.** -/
theorem records_addCall (s : Scope) (library routine : String) (pos : Position) :
    Records [(library, routine)] s (s.addCall library routine pos) := by
  have hdeclare : ∃ new, (s.addCall library routine pos).symbols.newestFirst =
      new ++ s.symbols.newestFirst ∧ new.length ≤ 1 ∧
      ∃ x ∈ (s.addCall library routine pos).symbols.newestFirst,
        x.kind = .importedExternal ∧ x.name = Operand.callName library routine := by
    simp only [Scope.addCall, SymbolTable.declare]
    split
    · rename_i x hx
      obtain ⟨hmem, hspace, hname⟩ := SymbolTable.mem_of_get? hx
      refine ⟨[], rfl, by simp, x, hmem, ?_, hname⟩
      rcases hkind : x.kind <;> simp [hkind, SymbolKind.space] at hspace ⊢
    · exact ⟨[_], rfl, by simp, _, List.mem_cons_self, rfl, rfl⟩
  obtain ⟨new, hnew, hlen, hdeclared⟩ := hdeclare
  refine ⟨fun name => ?_, ?_, ⟨new, hnew, hlen⟩, by simpa using hdeclared⟩
  · simp only [Scope.addCall, List.map_cons, List.map_nil, List.mem_singleton]
    split_ifs with hused
    · exact (or_iff_left_of_imp fun h => h ▸ hused).symm
    · rw [List.mem_cons, or_comm]
  · simp only [Scope.addCall]
    split_ifs
    · exact ⟨[], by simp⟩
    · exact ⟨[(library, none)], rfl, by simp⟩

theorem records_addOperand (s : Scope) (pos : Position) (operand : Operand) (slot : Slot) :
    Records (Operand.callIn? (operand, slot)).toList s (s.addOperand pos slot operand) := by
  unfold Scope.addOperand
  split
  · exact records_addCall s _ _ pos
  · rename_i hno
    have hnone : Operand.callIn? (operand, slot) = none := by
      unfold Operand.callIn?
      split
      · rename_i library routine heq
        obtain ⟨rfl, rfl⟩ := Prod.mk.inj heq
        exact absurd rfl (hno library routine rfl)
      · rfl
    rw [hnone]
    exact .refl s

theorem records_checkOperands (s : Scope) (i : Instruction) (pairs : List (Operand × Slot)) :
    Records (pairs.filterMap Operand.callIn?) s (s.checkOperands i pairs).1 := by
  induction pairs generalizing s with
  | nil => exact .refl s
  | cons pair pairs ih =>
    obtain ⟨operand, slot⟩ := pair
    have hcalls : ((operand, slot) :: pairs).filterMap Operand.callIn? =
        (Operand.callIn? (operand, slot)).toList ++ pairs.filterMap Operand.callIn? := by
      rcases hcall : Operand.callIn? (operand, slot) with _ | c <;> simp [hcall]
    rw [hcalls]
    exact (records_addOperand s i.pos operand slot).trans (ih _)

/-- **An instruction records its calls**, also if there is something wrong with it. -/
theorem records_check (mask : Mask) (p : Progress) (i : Instruction) :
    Records i.calls p.scope (p.check mask i).1.scope := by
  rcases hspec : Spec.named? i.mnemonic with _ | spec
  · simp only [Progress.check, Instruction.calls, hspec]
    exact .refl _
  · simp only [Progress.check, Instruction.calls, hspec, ne_eq, ite_not]
    split_ifs
    · exact records_checkOperands ..
    · exact .refl _

theorem records_add (mask : Mask) (p : Progress) (i : Instruction) :
    Records i.calls p.scope (p.add mask i).1.scope := by
  have hcheck := records_check mask p i
  rw [Progress.add_eq]
  generalize p.check mask i = next at hcheck ⊢
  exact hcheck

theorem records_gather (mask : Mask) (p : Progress) (is : List Instruction) :
    Records (is.flatMap Instruction.calls) p.scope
      (gather (Progress.add mask) p is).1.scope := by
  induction is generalizing p with
  | nil => exact .refl _
  | cons i is ih =>
    rw [gather_cons, List.flatMap_cons]
    exact (records_add mask p i).trans (ih (p.add mask i).1)

/-! ### The passes over a program -/

/-- What the first pass lays out, and what it finds. -/
def firstPass (p : Program) (extra : List String) : Layout × List Finding :=
  Layout.ofProgram p extra (p.data.map measured)

/-- What the second pass comes to, and what it finds. -/
def secondPass (p : Program) (extra : List String) : Progress × List Finding :=
  gather (Progress.add (firstPass p extra).1.mask) (firstPass p extra).1.start p.instructions

/-- **The second pass records the calls of the program.** -/
theorem records_secondPass (p : Program) (extra : List String) :
    Records p.calls (firstPass p extra).1.start.scope (secondPass p extra).1.scope :=
  records_gather ..

/-- What the analysis returns is what the two passes give. -/
theorem passes_of_ofProgram {p : Program} {extra : List String} {file : Option String}
    {a : Analysis} (h : ofProgram p extra file = .ok a) : a.file = (file.orElse fun _ => p.file) ∧
      a.symbols = (secondPass p extra).1.scope.symbols ∧
      a.libraries = (secondPass p extra).1.scope.libraries ∧
      a.findings = (firstPass p extra).2 ++ (secondPass p extra).2 ++
        unusedFindings p (secondPass p extra).1.scope.libraries
          (secondPass p extra).1.scope.used := by
  obtain ⟨sizes, hsizes, h⟩ := Steps.bind_eq_ok.mp h
  obtain ⟨rfl, -⟩ := mapM_datumSize hsizes
  simp only [secondPass, firstPass, Layout.start] at h ⊢
  generalize Layout.ofProgram p extra (p.data.map measured) = l at h ⊢
  generalize gather (Progress.add l.1.mask) ⟨⟨l.1.symbols, l.1.libraries, []⟩, 0, []⟩
    p.instructions = run at h ⊢
  split_ifs at h
  · cases h
  · cases h
    exact ⟨rfl, rfl, rfl, rfl⟩

theorem found_eq (p : Program) (extra : List String) : found p extra =
    (firstPass p extra).2 ++ (secondPass p extra).2 ++
      unusedFindings p (secondPass p extra).1.scope.libraries
        (secondPass p extra).1.scope.used := by
  simp only [found, secondPass, firstPass]

end Analysis

end AluVM
