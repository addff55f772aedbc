import AluVM.Proofs.Acceptance

/-! # Renaming

Routines and labels, data, and constants may be given other names, as long as different names of
one namespace stay different. A name is renamed where it is declared and where it is used: in a
slot for a label, a datum or an integer. Both passes over the renamed program then go as they do
over the program itself, as long as these find no error:

* `gather_follows`: a pass follows another one if its steps do;
* `layout_ofProgram`: the layout is the renamed one;
* `ofProgram_renamed`: so is the analysis, and it finds the same. -/

namespace AluVM

open Syntax (Operand Instruction Node Routine ConstantDecl DataDecl Item Program CodeLine)

/-- New names for routines and labels, for data, and for constants. -/
structure Renaming where
  code : String → String
  data : String → String
  const : String → String

/-- The namespace in which a name in the slot is looked up. Registers have none; the names that
stand there are left as they are, as those of routines of libraries. -/
def Slot.space : Slot → Namespace
  | immediate .. => .const
  | label => .code
  | data => .data
  | register .. => .foreign
  | foreign => .foreign

namespace Renaming

/-! ### Renamed programs -/

section Syntax
variable (ρ : Renaming)

/-- The new name of a symbol. Routines of libraries keep their names. -/
def name : Namespace → String → String
  | .code => ρ.code
  | .data => ρ.data
  | .const => ρ.const
  | .foreign => id

/-- The renamed operand of a slot. -/
def operand (slot : Slot) : Operand → Operand
  | .symbol name => .symbol (ρ.name slot.space name)
  | operand => operand

/-- The renamed operands of slots; those beyond the slots are left as they are. -/
def operands : List Slot → List Operand → List Operand
  | slot :: slots, x :: xs => ρ.operand slot x :: operands slots xs
  | _, xs => xs

/-- The renamed instruction. -/
def instruction (i : Instruction) : Instruction :=
  match Spec.named? i.mnemonic with
  | some spec => { i with operands := ρ.operands spec.slots i.operands }
  | none => i

/-- The renamed part of a routine. -/
def node : Node → Node
  | .label name pos => .label (ρ.code name) pos
  | .instruction i => .instruction (ρ.instruction i)

/-- The renamed routine. -/
def routine (r : Routine) : Routine :=
  { r with name := r.name.map ρ.code, body := r.body.map ρ.node }

/-- The renamed constant. -/
def constantDecl (d : ConstantDecl) : ConstantDecl := { d with name := ρ.const d.name }

/-- The renamed declaration of data. -/
def dataDecl (d : DataDecl) : DataDecl := { d with name := ρ.data d.name }

/-- The renamed part of a program. -/
def item : Item → Item
  | .constant d => .constant (ρ.constantDecl d)
  | .data d => .data (ρ.dataDecl d)
  | .routine r => .routine (ρ.routine r)
  | item => item

/-- **The renamed program.** -/
def program (p : Program) : Program := { p with items := p.items.map ρ.item }

/-- The renamed line of code. -/
def line : CodeLine → CodeLine
  | .mark kind name pos => .mark kind (ρ.name kind.space name) pos
  | .word i => .word (ρ.instruction i)
  | line => line

@[simp] theorem extensions_program (p : Program) : (ρ.program p).extensions = p.extensions := by
  rw [Program.extensions, Program.extensions, program, List.filterMap_map]
  congr 1
  funext x
  cases x <;> rfl

@[simp] theorem libraries_program (p : Program) : (ρ.program p).libraries = p.libraries := by
  rw [Program.libraries, Program.libraries, program, List.filterMap_map]
  congr 1
  funext x
  cases x <;> rfl

@[simp] theorem constants_program (p : Program) :
    (ρ.program p).constants = p.constants.map ρ.constantDecl := by
  rw [Program.constants, Program.constants, program, List.filterMap_map, List.map_filterMap]
  congr 1
  funext x
  cases x <;> rfl

@[simp] theorem data_program (p : Program) : (ρ.program p).data = p.data.map ρ.dataDecl := by
  rw [Program.data, Program.data, program, List.filterMap_map, List.map_filterMap]
  congr 1
  funext x
  cases x <;> rfl

@[simp] theorem routines_program (p : Program) :
    (ρ.program p).routines = p.routines.map ρ.routine := by
  rw [Program.routines, Program.routines, program, List.filterMap_map, List.map_filterMap]
  congr 1
  funext x
  cases x <;> rfl

theorem lines_routine (r : Routine) : (ρ.routine r).lines = r.lines.map ρ.line := by
  have hbody : ∀ n : Node, (ρ.node n).line = ρ.line n.line := by
    intro n
    cases n <;> rfl
  have hopening : (ρ.routine r).opening = ρ.line r.opening := by
    obtain ⟨name, body, pos⟩ := r
    cases name <;> rfl
  rw [Routine.lines, Routine.lines, List.map_cons, hopening, List.map_map]
  simp only [routine, List.map_map, Function.comp_def, hbody]

@[simp] theorem lines_program (p : Program) : (ρ.program p).lines = p.lines.map ρ.line := by
  rw [Program.lines, Program.lines, routines_program, List.flatMap_map, List.map_flatMap]
  simp only [lines_routine]

@[simp] theorem instructions_program (p : Program) :
    (ρ.program p).instructions = p.instructions.map ρ.instruction := by
  rw [← Syntax.wordsOf_lines, ← Syntax.wordsOf_lines, lines_program, Syntax.wordsOf,
    Syntax.wordsOf, List.filterMap_map, List.map_filterMap]
  congr 1
  funext x
  cases x <;> rfl

theorem mnemonic_instruction (i : Instruction) : (ρ.instruction i).mnemonic = i.mnemonic := by
  unfold instruction
  split <;> rfl

theorem pos_instruction (i : Instruction) : (ρ.instruction i).pos = i.pos := by
  unfold instruction
  split <;> rfl

theorem operands_instruction {i : Instruction} {spec : Spec}
    (h : Spec.named? i.mnemonic = some spec) :
    (ρ.instruction i).operands = ρ.operands spec.slots i.operands := by
  rw [instruction, h]

theorem length_operands (slots : List Slot) (xs : List Operand) :
    (ρ.operands slots xs).length = xs.length := by
  induction slots generalizing xs with
  | nil => rfl
  | cons slot slots ih =>
    cases xs with
    | nil => rfl
    | cons x xs => simp [operands, ih]

/-- The operands with their slots. -/
theorem zip_operands (slots : List Slot) (xs : List Operand) :
    (ρ.operands slots xs).zip slots =
      (xs.zip slots).map fun (x, slot) => (ρ.operand slot x, slot) := by
  induction slots generalizing xs with
  | nil => simp
  | cons slot slots ih =>
    cases xs with
    | nil => rfl
    | cons x xs => simp [operands, ih]

/-! ### Renamed tables -/

/-- The renamed symbol. -/
def symbol (s : Symbol) : Symbol := { s with name := ρ.name s.kind.space s.name }

/-- The renamed table of symbols. -/
def table (t : SymbolTable) : SymbolTable := ⟨t.newestFirst.map ρ.symbol⟩

/-- Different names of one namespace get different names. -/
def Injective : Prop := ∀ space, Function.Injective (ρ.name space)

end Syntax

variable {ρ : Renaming}

theorem Injective.isAt (hρ : ρ.Injective) (space : Namespace) (name : String) (s : Symbol) :
    (ρ.symbol s).isAt space (ρ.name space name) = s.isAt space name := by
  unfold Symbol.isAt
  by_cases hspace : s.kind.space = space
  · subst hspace
    simp [symbol, (hρ _).eq_iff]
  · simp [symbol, hspace]

theorem Injective.get? (hρ : ρ.Injective) (t : SymbolTable) (space : Namespace) (name : String) :
    (ρ.table t).get? space (ρ.name space name) = (t.get? space name).map ρ.symbol := by
  rw [SymbolTable.get?, SymbolTable.get?, table, List.find?_map]
  congr 2
  funext s
  exact hρ.isAt space name s

theorem Injective.declare (hρ : ρ.Injective) (t : SymbolTable) (s : Symbol) :
    (ρ.table t).declare (ρ.symbol s) = ρ.table (t.declare s) := by
  have hget : (ρ.table t).get? (ρ.symbol s).kind.space (ρ.symbol s).name =
      (t.get? s.kind.space s.name).map ρ.symbol := hρ.get? t s.kind.space s.name
  rw [SymbolTable.declare, SymbolTable.declare, hget]
  rcases t.get? s.kind.space s.name with _ | earlier <;> rfl

end Renaming

namespace Analysis

/-! ### Passes that follow each other -/

/-- **A pass follows another one** that finds no error, if it does so step by step. -/
theorem gather_follows {σ σ' α α' : Type} {step : σ → α → σ × List Finding}
    {step' : σ' → α' → σ' × List Finding} (R : σ → σ' → Prop) (T : α → α' → Prop)
    (hstep : ∀ s s' x x', R s s' → T x x' → Clean (step s x).2 →
      R (step s x).1 (step' s' x').1 ∧ (step' s' x').2 = (step s x).2)
    {s : σ} {s' : σ'} {xs : List α} {xs' : List α'} (hs : R s s') (hxs : List.Forall₂ T xs xs')
    (h : Clean (gather step s xs).2) : R (gather step s xs).1 (gather step' s' xs').1 ∧
      (gather step' s' xs').2 = (gather step s xs).2 := by
  induction hxs generalizing s s' with
  | nil => exact ⟨hs, rfl⟩
  | @cons x x' xs xs' hx _ ih =>
    rw [gather_cons, clean_append] at h
    obtain ⟨hnext, hfound⟩ := hstep s s' x x' hs hx h.1
    obtain ⟨hlast, hothers⟩ := ih hnext h.2
    rw [gather_cons, gather_cons, hfound, hothers]
    exact ⟨hlast, rfl⟩

/-- A pass follows another one through maps of the states and of the elements. -/
theorem gather_map {σ σ' α α' : Type} {step : σ → α → σ × List Finding}
    {step' : σ' → α' → σ' × List Finding} (F : σ → σ') (f : α → α')
    (hstep : ∀ s x, Clean (step s x).2 → step' (F s) (f x) = (F (step s x).1, (step s x).2))
    {s : σ} {xs : List α} (h : Clean (gather step s xs).2) :
    gather step' (F s) (xs.map f) = (F (gather step s xs).1, (gather step s xs).2) := by
  have hxs : List.Forall₂ (fun x x' => x' = f x) xs (xs.map f) :=
    List.forall₂_map_right_iff.mpr (List.forall₂_same.mpr fun _ _ => rfl)
  have hnext : ∀ s s' x x', s' = F s → x' = f x → Clean (step s x).2 →
      (step' s' x').1 = F (step s x).1 ∧ (step' s' x').2 = (step s x).2 := by
    intro s s' x x' hs hx hclean
    rw [hs, hx, hstep s x hclean]
    exact ⟨rfl, rfl⟩
  obtain ⟨hlast, hfound⟩ :=
    gather_follows (fun s s' => s' = F s) (fun x x' => x' = f x) hnext rfl hxs h
  exact Prod.ext hlast hfound

variable {ρ : Renaming}

/-! ### The layout -/

theorem Layout.declare_of_clean {l : Layout} {kind : SymbolKind} {name : String} {value : Int}
    {pos : Position} (h : Clean (l.declare kind name value pos).2) :
    l.declare kind name value pos =
      ({ l with symbols := l.symbols.declare ⟨name, kind, some value, some pos⟩ }, []) := by
  obtain ⟨hfree, hreach⟩ := clean_declare_iff.mp h
  have hinside : (decide (kind ≠ .constant) && decide ((maxOffset : Int) < value)) = false := by
    by_cases hkind : kind = .constant
    · simp [hkind]
    · simpa [hkind] using hreach hkind
  rw [declare, hfree]
  simp only [hinside]
  rfl

end Analysis

namespace Renaming
variable (ρ : Renaming)

/-- The renamed datum at its place. -/
def placedDatum (q : Analysis.PlacedDatum) : Analysis.PlacedDatum :=
  { q with decl := ρ.dataDecl q.decl }

/-- The renamed layout. -/
def layout (l : Analysis.Layout) : Analysis.Layout :=
  { l with symbols := ρ.table l.symbols, data := l.data.map ρ.placedDatum }

end Renaming

namespace Analysis
variable {ρ : Renaming}

theorem declare_renamed (hρ : ρ.Injective) {l : Layout} {kind : SymbolKind} {name : String}
    {value : Int} {pos : Position} (h : Clean (l.declare kind name value pos).2) :
    (ρ.layout l).declare kind (ρ.name kind.space name) value pos =
      (ρ.layout (l.declare kind name value pos).1, (l.declare kind name value pos).2) := by
  obtain ⟨hfree, hreach⟩ := Layout.clean_declare_iff.mp h
  have hfree' : (ρ.layout l).symbols.get? kind.space (ρ.name kind.space name) = none := by
    show (ρ.table l.symbols).get? kind.space (ρ.name kind.space name) = none
    rw [hρ.get?, hfree]
    rfl
  have hsymbol : (ρ.table l.symbols).declare
      ⟨ρ.name kind.space name, kind, some value, some pos⟩ =
      ρ.table (l.symbols.declare ⟨name, kind, some value, some pos⟩) :=
    hρ.declare l.symbols ⟨name, kind, some value, some pos⟩
  rw [Layout.declare_of_clean (Layout.clean_declare_iff.mpr ⟨hfree', hreach⟩),
    Layout.declare_of_clean h]
  simp only [Renaming.layout, hsymbol]

/-- The size of a sound declaration of data does not depend on its name. -/
theorem datumSize_renamed {d : DataDecl} {size : Nat} (h : datumSize d = .ok (size, [])) :
    datumSize (ρ.dataDecl d) = .ok (size, []) := by
  unfold datumSize at h ⊢
  have htype : (ρ.dataDecl d).type = d.type := rfl
  have hvalues : (ρ.dataDecl d).values = d.values := rfl
  rw [htype, hvalues]
  split_ifs at h ⊢ with hstring hblob
  · rcases hraw : d.values.mapM rawBytes? with _ | strings
    · simp [hraw] at h
    · simpa [hraw] using h
  · obtain ⟨blobs, hblobs, h⟩ := Steps.bind_eq_ok.mp h
    obtain ⟨hsize, hcauses⟩ := Prod.mk.inj (Except.ok.inj h)
    refine Steps.bind_eq_ok.mpr ⟨blobs, hblobs, ?_⟩
    rw [List.filterMap_eq_nil_iff] at hcauses
    have hnone : ∀ x ∈ d.values.zip blobs, blobCause? (ρ.dataDecl d) x.1 x.2 = none := by
      intro x hx
      have := hcauses x hx
      simp only [blobCause?] at this ⊢
      split_ifs at this ⊢ with hsome
      rfl
    exact congrArg Except.ok (Prod.ext hsize (List.filterMap_eq_nil_iff.mpr hnone))
  · rcases htype : numericType? d.type with _ | ⟨width, signed⟩
    · simp [htype] at h
    · simp only [htype, Except.ok.injEq, Prod.mk.injEq] at h ⊢
      refine ⟨h.1, List.filterMap_eq_nil_iff.mpr fun v hv => ?_⟩
      have hnone := List.filterMap_eq_nil_iff.mp h.2 v hv
      cases v with
      | immediate i =>
        simp only [valueCause?] at hnone ⊢
        split_ifs at hnone ⊢
        rfl
      | _ => rfl

section Layout
variable (hρ : ρ.Injective)
include hρ

theorem addConstant_renamed {l : Layout} {d : ConstantDecl} (h : Clean (l.addConstant d).2) :
    (ρ.layout l).addConstant (ρ.constantDecl d) =
      (ρ.layout (l.addConstant d).1, (l.addConstant d).2) := declare_renamed hρ h

theorem addDatum_renamed {l : Layout} {d : DataDecl} {size : Nat} {causes : List Cause}
    (h : Clean (l.addDatum (d, size, causes)).2) :
    (ρ.layout l).addDatum (ρ.dataDecl d, size, causes) =
      (ρ.layout (l.addDatum (d, size, causes)).1, (l.addDatum (d, size, causes)).2) := by
  have hdeclare : Clean (l.declare .dataSymbol d.name l.dataSize d.pos).2 := (clean_append.mp h).2
  have hrenamed := declare_renamed hρ hdeclare
  have hsame : (ρ.layout l).addDatum (ρ.dataDecl d, size, causes) =
      let next := (ρ.layout l).declare .dataSymbol (ρ.name SymbolKind.dataSymbol.space d.name)
        l.dataSize d.pos
      ({ next.1 with
          data := ⟨ρ.dataDecl d, l.dataSize, size⟩ :: l.data.map ρ.placedDatum
          dataSize := l.dataSize + size },
        causes.map (fun c => ⟨c, some d.pos⟩) ++ next.2) := rfl
  rw [hsame, hrenamed]
  rfl

theorem addLine_renamed {l : Layout} {line : CodeLine} (h : Clean (l.addLine line).2) :
    (ρ.layout l).addLine (ρ.line line) = (ρ.layout (l.addLine line).1, (l.addLine line).2) := by
  cases line with
  | mark kind name pos => exact declare_renamed hρ h
  | word i => rfl
  | entry pos =>
    obtain ⟨mask, libraries, symbols, data, dataSize, codeSize, entry⟩ := l
    cases entry <;> rfl

/-- **The layout of the renamed program** is the renamed layout. -/
theorem layout_ofProgram {p : Program} {extra : List String} {sizes : List (Nat × List Cause)}
    (h : Clean (Layout.ofProgram p extra sizes).2) :
    Layout.ofProgram (ρ.program p) extra sizes =
      (ρ.layout (Layout.ofProgram p extra sizes).1, (Layout.ofProgram p extra sizes).2) := by
  have hzip : (p.data.map ρ.dataDecl).zip sizes =
      (p.data.zip sizes).map fun x => (ρ.dataDecl x.1, x.2) := by
    rw [List.zip_map_left]
    rfl
  have hlines : (ρ.program p).routines.flatMap Routine.lines = p.lines.map ρ.line :=
    ρ.lines_program p
  have hlines' : p.routines.flatMap Routine.lines = p.lines := rfl
  simp only [Layout.ofProgram, clean_append, Layout.gather_addRoutine, hlines, hlines', hzip,
    Renaming.extensions_program, Renaming.libraries_program, Renaming.constants_program,
    Renaming.data_program] at h ⊢
  obtain ⟨⟨⟨⟨⟨⟨-, hlibs⟩, hconsts⟩, hdata⟩, -⟩, hcode⟩, -⟩ := h
  -- Extensions and libraries come first, when there is nothing to rename yet.
  have hopens := Layout.gather_addLibrary Layout.gather_addExtension hlibs
  generalize gather Layout.addLibrary _ p.libraries = l1 at *
  have hopen : ρ.layout l1.1 = l1.1 := by
    simp only [Renaming.layout, Renaming.table, hopens.symbols, hopens.data, List.map_nil]
    rw [← hopens.symbols, ← hopens.data]
  have hconsts' := gather_map ρ.layout ρ.constantDecl (fun _ _ => addConstant_renamed hρ) hconsts
  rw [hopen] at hconsts'
  rw [hconsts']
  generalize gather Layout.addConstant l1.1 p.constants = l2 at *
  rw [gather_map ρ.layout (fun x => (ρ.dataDecl x.1, x.2)) (fun _ _ => addDatum_renamed hρ) hdata]
  generalize gather Layout.addDatum l2.1 (p.data.zip sizes) = l3 at *
  rw [gather_map ρ.layout ρ.line (fun _ _ => addLine_renamed hρ) hcode]
  rfl

end Layout

/-! ### The second pass -/

end Analysis

namespace Renaming

/-- An operand that was looked up, before and after renaming. The text of an integer may be the
name of a constant, and is not compared. -/
inductive Meaning (ρ : Renaming) : Operand → Operand → Prop where
  | register (set : String) (index : Int) : Meaning ρ (.register set index) (.register set index)
  | immediate (value : Int) (text text' : String) (width : Nat) :
      Meaning ρ (.immediate ⟨value, text, width⟩) (.immediate ⟨value, text', width⟩)
  | label (name : String) : Meaning ρ (.label name) (.label (ρ.code name))
  | datum (name : String) : Meaning ρ (.datum name) (.datum (ρ.data name))
  | call (library routine : String) : Meaning ρ (.call library routine) (.call library routine)

/-- An instruction at its place, before and after renaming. -/
structure Placed (ρ : Renaming) (q q' : Analysis.Placed) : Prop where
  offset : q'.offset = q.offset
  spec : q'.spec = q.spec
  operands : List.Forall₂ ρ.Meaning q.operands q'.operands
  pos : q'.pos = q.pos

/-- The renamed scope. -/
def scope (ρ : Renaming) (s : Analysis.Scope) : Analysis.Scope :=
  { s with symbols := ρ.table s.symbols }

/-- The state of the second pass, before and after renaming. -/
structure Progress (ρ : Renaming) (progress progress' : Analysis.Progress) : Prop where
  scope : progress'.scope = ρ.scope progress.scope
  offset : progress'.offset = progress.offset
  code : List.Forall₂ ρ.Placed progress.code progress'.code

theorem Meaning.set? {ρ : Renaming} {x x' : Operand} (h : ρ.Meaning x x') : x'.set? = x.set? := by
  cases h <;> rfl

end Renaming

namespace Analysis
variable {ρ : Renaming}

section Scope
variable (hρ : ρ.Injective)
include hρ

theorem Classified.renamed {t : SymbolTable} {slot : Slot} {operand meaning : Operand}
    (h : Classified t slot operand meaning) :
    ∃ meaning', Classified (ρ.table t) slot (ρ.operand slot operand) meaning' ∧
      ρ.Meaning meaning meaning' := by
  have hget : ∀ {space name symbol}, t.get? space name = some symbol →
      (ρ.table t).get? space (ρ.name space name) = some (ρ.symbol symbol) := by
    intro space name symbol hsymbol
    rw [hρ.get?, hsymbol]
    rfl
  cases h with
  | register named bank allowed inside =>
    exact ⟨_, .register named bank allowed inside, .register _ _⟩
  | literal fits => exact ⟨_, .literal fits, .immediate _ _ _ _⟩
  | constant declared fits => exact ⟨_, .constant (hget declared) fits, .immediate _ _ _ _⟩
  | label declared => exact ⟨_, .label (hget declared), .label _⟩
  | datum declared => exact ⟨_, .datum (hget declared), .datum _⟩
  | call => exact ⟨_, .call, .call _ _⟩

theorem addOperand_renamed (s : Scope) (pos : Position) (slot : Slot) (operand : Operand) :
    (ρ.scope s).addOperand pos slot (ρ.operand slot operand) =
      ρ.scope (s.addOperand pos slot operand) := by
  have hcall : ∀ library routine, (ρ.scope s).addCall library routine pos =
      ρ.scope (s.addCall library routine pos) := by
    intro library routine
    have hsymbol := hρ.declare s.symbols
      ⟨Operand.callName library routine, .importedExternal, none, some pos⟩
    simp only [Scope.addCall, Renaming.scope, ← hsymbol]
    rfl
  cases slot <;> cases operand <;> first | rfl | exact hcall _ _

/-- Operands that are accepted are accepted after renaming. -/
theorem checkOperands_renamed {i i' : Instruction} (hmnemonic : i'.mnemonic = i.mnemonic)
    (hpos : i'.pos = i.pos) {pairs : List (Operand × Slot)} {s : Scope}
    (h : (s.checkOperands i pairs).2.filterMap causeOf? = []) :
    let run := s.checkOperands i pairs
    let run' := (ρ.scope s).checkOperands i' (pairs.map fun (x, slot) => (ρ.operand slot x, slot))
    run'.1 = ρ.scope run.1 ∧ run'.2.filterMap causeOf? = [] ∧
      List.Forall₂ ρ.Meaning (run.2.filterMap operandOf?) (run'.2.filterMap operandOf?) := by
  induction pairs generalizing s with
  | nil => exact ⟨rfl, rfl, .nil⟩
  | cons pair pairs ih =>
    obtain ⟨operand, slot⟩ := pair
    rcases hr : s.checkOperand i.mnemonic operand slot with cause | meaning
    · simp [Scope.checkOperands, hr, causeOf?] at h
    · obtain ⟨meaning', hmeaning', hrelated⟩ := (checkOperand_classified hr).renamed hρ
      have hr' : (ρ.scope s).checkOperand i.mnemonic (ρ.operand slot operand) slot = .ok meaning' :=
        checkOperand_of_classified hmeaning'
      simp only [Scope.checkOperands, List.map_cons, hmnemonic, hpos, hr, hr',
        addOperand_renamed hρ, List.filterMap_cons, causeOf?, operandOf?] at h ⊢
      obtain ⟨hscope, hcauses, hmeanings⟩ := ih h
      exact ⟨hscope, hcauses, .cons hrelated hmeanings⟩

end Scope

theorem setCauses_renamed {i i' : Instruction} {spec : Spec} {xs xs' : List Operand}
    (h : List.Forall₂ ρ.Meaning xs xs') (hxs : setCauses i spec xs = []) :
    setCauses i' spec xs' = [] := by
  have hsets : xs'.filterMap Operand.set? = xs.filterMap Operand.set? := by
    clear hxs
    induction h with
    | nil => rfl
    | cons hx _ ih => rw [List.filterMap_cons, List.filterMap_cons, ih, hx.set?]
  rw [setCauses_eq_nil] at hxs ⊢
  rwa [hsets]

/-- What an instruction adds whose operands are all accepted. -/
theorem Progress.addSpec_eq_nil {mask : Mask} {progress : Progress} {i : Instruction}
    {spec : Spec} : (progress.addSpec mask i spec).2 = [] ↔
      let run := progress.scope.checkOperands i (i.operands.zip spec.slots)
      mask.has spec.extension = true ∧ run.2.filterMap causeOf? = [] ∧
        setCauses i spec (run.2.filterMap operandOf?) = [] := by
  simp only [addSpec, ← extensionCauses_eq_nil (i := i)]
  constructor
  · intro h
    split_ifs at h with hbefore
    · rw [List.isEmpty_iff, List.append_eq_nil_iff] at hbefore
      exact ⟨hbefore.1, hbefore.2, h⟩
    · exact absurd h (by simpa using hbefore)
  · rintro ⟨hextension, hcauses, hsets⟩
    simp [hextension, hcauses, hsets]

theorem Progress.addSpec_fst {mask : Mask} {progress : Progress} {i : Instruction} {spec : Spec}
    (h : (progress.addSpec mask i spec).2 = []) :
    (progress.addSpec mask i spec).1 = { progress with
      scope := (progress.scope.checkOperands i (i.operands.zip spec.slots)).1
      code := ⟨progress.offset, spec, (progress.scope.checkOperands i
        (i.operands.zip spec.slots)).2.filterMap operandOf?, i.pos⟩ :: progress.code } := by
  simp only [addSpec] at h ⊢
  rw [if_pos (List.isEmpty_iff.mpr h)]

/-- **An instruction that is accepted** is accepted after renaming. -/
theorem check_renamed (hρ : ρ.Injective) {mask : Mask} {progress progress' : Progress}
    (hp : ρ.Progress progress progress') {i : Instruction}
    (h : (progress.check mask i).2 = []) :
    ρ.Progress (progress.check mask i).1 (progress'.check mask (ρ.instruction i)).1 ∧
      (progress'.check mask (ρ.instruction i)).2 = [] := by
  have hmnemonic := ρ.mnemonic_instruction i
  have hpos := ρ.pos_instruction i
  rcases hspec : Spec.named? i.mnemonic with _ | spec
  · simp [Progress.check, hspec] at h
  have hcount : i.operands.length = spec.slots.length := by
    by_contra hne
    simp [Progress.check, hspec, hne] at h
  have hoperands := ρ.operands_instruction hspec
  have hcount' : (ρ.instruction i).operands.length = spec.slots.length := by
    rw [hoperands, ρ.length_operands, hcount]
  have hcheck : progress.check mask i = progress.addSpec mask i spec := by
    simp [Progress.check, hspec, hcount]
  have hcheck' : progress'.check mask (ρ.instruction i) =
      progress'.addSpec mask (ρ.instruction i) spec := by
    simp [Progress.check, hmnemonic, hspec, hcount']
  rw [hcheck] at h ⊢
  rw [hcheck']
  obtain ⟨hextension, hcauses, hsets⟩ := Progress.addSpec_eq_nil.mp h
  obtain ⟨hscope, hcauses', hmeanings⟩ := checkOperands_renamed hρ hmnemonic hpos hcauses
  rw [← ρ.zip_operands, ← hoperands, ← hp.scope] at hscope hcauses' hmeanings
  have hnil : (progress'.addSpec mask (ρ.instruction i) spec).2 = [] :=
    Progress.addSpec_eq_nil.mpr ⟨hextension, hcauses', setCauses_renamed hmeanings hsets⟩
  refine ⟨?_, hnil⟩
  have hoffset : (progress'.offset : Int) = progress.offset := by rw [hp.offset]
  rw [Progress.addSpec_fst h, Progress.addSpec_fst hnil]
  generalize progress.scope.checkOperands i (i.operands.zip spec.slots) = run at hscope hmeanings ⊢
  generalize progress'.scope.checkOperands (ρ.instruction i)
    ((ρ.instruction i).operands.zip spec.slots) = run' at hscope hmeanings ⊢
  exact ⟨hscope, hp.offset, .cons ⟨hoffset, rfl, hmeanings, hpos⟩ hp.code⟩

theorem add_renamed (hρ : ρ.Injective) {mask : Mask} {progress progress' : Progress}
    (hp : ρ.Progress progress progress') {i : Instruction} (h : Clean (progress.add mask i).2) :
    ρ.Progress (progress.add mask i).1 (progress'.add mask (ρ.instruction i)).1 ∧
      (progress'.add mask (ρ.instruction i)).2 = (progress.add mask i).2 := by
  have hnil := Progress.clean_add_iff.mp h
  obtain ⟨hnext, hnil'⟩ := check_renamed hρ hp hnil
  rw [Progress.add_eq, Progress.add_eq, hnil, hnil']
  generalize Progress.check mask progress i = next at hnext ⊢
  generalize Progress.check mask progress' (ρ.instruction i) = next' at hnext ⊢
  exact ⟨⟨hnext.scope, congrArg (· + wordSize) hnext.offset, hnext.code⟩, rfl⟩

end Analysis

/-! ### The analysis -/

/-- An analysis, before and after renaming. -/
structure Renaming.Analysis (ρ : Renaming) (a a' : AluVM.Analysis) : Prop where
  mask : a'.mask = a.mask
  symbols : a'.symbols = ρ.table a.symbols
  code : List.Forall₂ ρ.Placed a.code a'.code
  data : a'.data = a.data.map ρ.placedDatum
  libraries : a'.libraries = a.libraries
  entry : a'.entry = a.entry
  codeSize : a'.codeSize = a.codeSize
  findings : a'.findings = a.findings
  file : a'.file = a.file

namespace Analysis
variable {ρ : Renaming}

/-- What is known after both passes. -/
def ofPasses (p : Program) (file : Option String) (l : Layout × List Finding)
    (run : Progress × List Finding) : Analysis where
  mask := l.1.mask
  symbols := run.1.scope.symbols
  code := run.1.code.reverse
  data := l.1.data.reverse
  libraries := run.1.scope.libraries
  entry := l.1.entry
  codeSize := l.1.codeSize
  dataSize := l.1.dataSize
  findings := l.2 ++ run.2 ++ unusedFindings p run.1.scope.libraries run.1.scope.used
  file := file.orElse fun _ => p.file

/-- The analysis is made of both passes, if all that they find can be reported. -/
theorem ofProgram_eq_ok {p : Program} {extra : List String} {file : Option String} {a : Analysis} :
    ofProgram p extra file = .ok a ↔ ∃ sizes, p.data.mapM datumSize = .ok sizes ∧
      let l := Layout.ofProgram p extra sizes
      let run := gather (Progress.add l.1.mask) l.1.start p.instructions
      a.findings.any Finding.isOverlong = false ∧ ofPasses p file l run = a := by
  rw [ofProgram, Steps.bind_eq_ok]
  refine exists_congr fun sizes => and_congr_right fun _ => ?_
  generalize Layout.ofProgram p extra sizes = l
  simp only [Layout.start]
  generalize gather (Progress.add l.1.mask) ⟨⟨l.1.symbols, l.1.libraries, []⟩, 0, []⟩
    p.instructions = run
  constructor
  · intro h
    split_ifs at h with hlong
    · cases h
    · cases h
      exact ⟨by simpa using hlong, rfl⟩
  · rintro ⟨hlong, rfl⟩
    have hshort : ¬ (l.2 ++ run.2 ++ unusedFindings p run.1.scope.libraries
        run.1.scope.used).any Finding.isOverlong = true := by
      rw [Bool.not_eq_true]
      exact hlong
    rw [if_neg hshort]
    rfl

/-- **The analysis of the renamed program**: it finds the same, and everything has its new name. -/
theorem ofProgram_renamed (hρ : ρ.Injective) {p : Program} {extra : List String}
    {file : Option String} {a : Analysis} (h : ofProgram p extra file = .ok a)
    (hok : a.ok = true) :
    ∃ a', ofProgram (ρ.program p) extra file = .ok a' ∧ ρ.Analysis a a' := by
  have haccepted := ofProgram_accepted h hok
  obtain ⟨sizes, hsizes, hshort, rfl⟩ := ofProgram_eq_ok.mp h
  rw [ok_iff_clean, ofPasses, clean_append, clean_append] at hok
  obtain ⟨⟨hdeclared, hchecked⟩, -⟩ := hok
  have hsizes' : (ρ.program p).data.mapM datumSize = .ok sizes := by
    obtain ⟨rfl, hmeasures⟩ := mapM_datumSize hsizes
    rw [Steps.mapM_eq_ok, ρ.data_program, List.forall₂_map_left_iff, List.forall₂_map_right_iff,
      List.forall₂_same]
    intro d hd
    have hsize := haccepted.datumSize_eq hd
    have hmeasured : measured d = ((measured d).1, []) :=
      Except.ok.inj ((hmeasures d hd).symm.trans hsize)
    rw [hmeasured]
    exact datumSize_renamed hsize
  have hlayout := layout_ofProgram hρ hdeclared
  generalize Layout.ofProgram p extra sizes = l at hlayout hshort hchecked ⊢
  obtain ⟨hrun, hfound⟩ := gather_follows ρ.Progress (fun i i' => i' = ρ.instruction i)
    (fun progress progress' i i' hp hi hclean => hi ▸ add_renamed hρ hp hclean)
    (⟨rfl, rfl, .nil⟩ : ρ.Progress l.1.start (ρ.layout l.1).start)
    (List.forall₂_map_right_iff.mpr (List.forall₂_same.mpr fun _ _ => rfl)) hchecked
  rw [← ρ.instructions_program] at hrun hfound
  generalize gather (Progress.add l.1.mask) l.1.start p.instructions = run at hrun hfound hshort ⊢
  have hrenamed : ρ.Analysis (ofPasses p file l run)
      (ofPasses (ρ.program p) file (ρ.layout l.1, l.2)
        (gather (Progress.add l.1.mask) (ρ.layout l.1).start (ρ.program p).instructions)) := by
    generalize gather (Progress.add l.1.mask) (ρ.layout l.1).start (ρ.program p).instructions =
      run' at hrun hfound
    have hunused : unusedFindings (ρ.program p) run'.1.scope.libraries run'.1.scope.used =
        unusedFindings p run.1.scope.libraries run.1.scope.used := by
      simp only [unusedFindings, ρ.libraries_program, hrun.scope, Renaming.scope]
    exact {
      mask := rfl
      symbols := congrArg Scope.symbols hrun.scope
      code := List.forall₂_reverse_iff.mpr hrun.code
      data := List.map_reverse.symm
      libraries := (congrArg Scope.libraries hrun.scope).trans rfl
      entry := rfl
      codeSize := rfl
      findings := by rw [ofPasses, ofPasses, hfound, hunused]
      file := rfl }
  refine ⟨_, ofProgram_eq_ok.mpr ⟨sizes, hsizes', ?_⟩, hrenamed⟩
  rw [hlayout, hrenamed.findings]
  exact ⟨hshort, rfl⟩

end Analysis

end AluVM
