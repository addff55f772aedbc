import AluVM.Proofs.Acceptance
import AluVM.Proofs.LongNumbers
import AluVM.Proofs.Objects
import AluVM.Proofs.Reading

/-! # Which sources get an answer

The assembler answers every source with reports, and with an object if none of them is an error,
unless a number gets in the way. A number of the source can have too many digits to be read
(`Syntax.HasLongNumber`). And an integer can have too many digits to be shown in a report: one of a
type of data or in a slot for integers, where nothing of this size fits, or the index of a register
in a slot for something else (`Program.ShowsLong`). -/

namespace AluVM

open Syntax

variable {names : CharacterNames}

namespace Syntax

/-- The value of the first constant of a name. -/
def Program.constant? (p : Program) (name : String) : Option Int :=
  (p.constants.find? (·.name = name)).map (·.value.value)

/-- **A report on the operand of a slot shows an integer with too many digits**: a number or a
constant in a slot for integers, or the index of a register in a slot that is for none. -/
inductive Program.ShowsOperand (p : Program) : Slot → Operand → Prop where
  | literal {bits : Nat} {signed : Bool} {i : Immediate}
      (long : Numeral.isOverlong i.value = true) :
      ShowsOperand p (.immediate bits signed) (.immediate i)
  | constant {bits : Nat} {signed : Bool} {name : String} {v : Int}
      (value : p.constant? name = some v) (long : Numeral.isOverlong v = true) :
      ShowsOperand p (.immediate bits signed) (.symbol name)
  | index {slot : Slot} {set : String} {index : Int}
      (misplaced : ∀ banks sets, slot ≠ .register banks sets)
      (long : Numeral.isOverlong index = true) : ShowsOperand p slot (.register set index)

/-- A report on the declaration shows a number with too many digits: a number of any type is
refused if it has so many. -/
def DataDecl.ShowsLong (d : DataDecl) : Prop :=
  ∃ width signed i, (d.type, width, signed) ∈ Analysis.numericTypes ∧
    Operand.immediate i ∈ d.values ∧ Numeral.isOverlong i.value = true

/-- A report on the operands of the instruction shows an integer with too many digits. Operands are
looked at only if there are as many as the instruction has slots. -/
def Instruction.ShowsLong (p : Program) (i : Instruction) : Prop :=
  ∃ spec, Spec.named? i.mnemonic = some spec ∧ i.operands.length = spec.slots.length ∧
    ∃ pair ∈ i.operands.zip spec.slots, p.ShowsOperand pair.2 pair.1

/-- **A report on the program shows an integer with too many digits.** -/
def Program.ShowsLong (p : Program) : Prop :=
  (∃ d ∈ p.data, d.ShowsLong) ∨ ∃ i ∈ p.instructions, i.ShowsLong p

theorem IsNumber.ne_empty {s : String} (h : IsNumber s) : s ≠ "" := by
  rintro rfl
  obtain ⟨sign, body, heq, -, hbody⟩ := h.parts
  obtain ⟨-, rfl⟩ := List.append_eq_nil_iff.mp heq.symm
  cases hbody with
  | decimal digits =>
    obtain ⟨c, run, heq, -⟩ := digits
    cases heq

end Syntax

theorem SymbolTable.get?_declare (t : SymbolTable) (s : Symbol) (space : Namespace)
    (name : String) : (t.declare s).get? space name =
      (t.get? space name).or (if s.isAt space name then some s else none) := by
  unfold declare
  split
  · rename_i earlier htaken
    split_ifs with hat
    · obtain ⟨rfl, rfl⟩ := isAt_iff.mp hat
      rw [htaken, Option.some_or]
    · rw [Option.or_none]
  · rename_i hfree
    rw [get?, List.find?_cons, ← get?]
    split_ifs with hat
    · obtain ⟨rfl, rfl⟩ := isAt_iff.mp hat
      simp [hat, hfree]
    · simp [hat]

namespace Analysis

/-! ### Reports that can be written -/

/-- The wording shows no integer with too many digits. -/
def Cause.Writable (c : Cause) : Prop := ∀ v ∈ c.shown, Numeral.isOverlong v = false

/-- All reports can be written. -/
def Writable (fs : List Finding) : Prop := ∀ f ∈ fs, f.cause.Writable

@[simp] theorem writable_nil : Writable [] := by simp [Writable]

@[simp] theorem writable_cons {f : Finding} {fs : List Finding} :
    Writable (f :: fs) ↔ f.cause.Writable ∧ Writable fs := List.forall_mem_cons

@[simp] theorem writable_append {fs gs : List Finding} :
    Writable (fs ++ gs) ↔ Writable fs ∧ Writable gs := List.forall_mem_append

@[simp] theorem writable_map {cs : List Cause} {pos : Option Position} :
    Writable (cs.map fun c => ⟨c, pos⟩) ↔ ∀ c ∈ cs, c.Writable := List.forall_mem_map

theorem any_isOverlong_eq_false {fs : List Finding} :
    fs.any Finding.isOverlong = false ↔ Writable fs := by
  simp [Writable, Cause.Writable, Finding.isOverlong]

/-- What is no error can be written. -/
theorem Clean.writable {fs : List Finding} (h : Clean fs) : Writable fs := by
  refine any_isOverlong_eq_false.mp (List.any_eq_false.mpr fun f hf => ?_)
  simp [Finding.isOverlong_of_not_isError (h f hf)]

/-- **The reports of a pass can be written** exactly if those of every step can, where an invariant
of the pass says what a step reports. -/
theorem writable_gather_iff {σ α : Type} {step : σ → α → σ × List Finding} {R : σ → Prop}
    {Q : α → Prop} {xs : List α} (hkeep : ∀ s x, R s → R (step s x).1)
    (hstep : ∀ s, R s → ∀ x ∈ xs, (Writable (step s x).2 ↔ Q x)) {s : σ} (hs : R s) :
    Writable (gather step s xs).2 ↔ ∀ x ∈ xs, Q x := by
  induction xs generalizing s with
  | nil => simp
  | cons x xs ih =>
    have hrest := ih (fun s hs y hy => hstep s hs y (List.mem_cons_of_mem x hy)) (hkeep s x hs)
    rw [gather_cons, writable_append, hstep s hs x List.mem_cons_self, hrest, List.forall_mem_cons]

theorem writable_gather {σ α : Type} {step : σ → α → σ × List Finding}
    (h : ∀ s x, Writable (step s x).2) (s : σ) (xs : List α) : Writable (gather step s xs).2 :=
  (writable_gather_iff (R := fun _ => True) (Q := fun _ => True) (fun _ _ _ => trivial)
    (fun s _ x _ => iff_true_intro (h s x)) trivial).mpr fun _ _ => trivial

/-! ### The first pass -/

namespace Layout

theorem writable_declare (l : Layout) (kind : SymbolKind) (name : String) (value : Int)
    (pos : Position) : Writable (l.declare kind name value pos).2 := by
  unfold declare redefinition
  split
  · split <;> simp [Cause.Writable, Cause.shown]
  · split_ifs <;> simp [Cause.Writable, Cause.shown]

theorem writable_addExtension (l : Layout) (named : String × Option Position) :
    Writable (l.addExtension named).2 := by
  unfold addExtension
  split <;> simp [Cause.Writable, Cause.shown]

theorem writable_addLibrary (l : Layout) (d : LibraryDecl) : Writable (l.addLibrary d).2 := by
  unfold addLibrary idFindings
  split_ifs
  · simp [Cause.Writable, Cause.shown]
  · split
    · split_ifs <;> simp [Cause.Writable, Cause.shown]
    · simp

theorem writable_addConstant (l : Layout) (d : ConstantDecl) : Writable (l.addConstant d).2 :=
  l.writable_declare .constant d.name d.value.value d.pos

theorem writable_addLine (l : Layout) (line : CodeLine) : Writable (l.addLine line).2 := by
  cases line with
  | entry pos =>
    unfold addLine
    split_ifs <;> simp [Cause.Writable, Cause.shown]
  | mark kind name pos => exact writable_declare l kind name l.codeSize pos
  | word i => exact writable_nil

theorem writable_dataFindings (l : Layout) : Writable l.dataFindings := by
  unfold dataFindings
  split_ifs <;> simp [Cause.Writable, Cause.shown]

theorem writable_codeFindings (l : Layout) : Writable l.codeFindings := by
  unfold codeFindings
  split_ifs <;> simp [Cause.Writable, Cause.shown]

theorem writable_addDatum (l : Layout) (x : DataDecl × Nat × List Cause) :
    Writable (l.addDatum x).2 ↔ ∀ c ∈ x.2.2, c.Writable := by
  simp [addDatum, writable_declare]

/-- **The reports of the first pass can be written** exactly if those on the data can. -/
theorem writable_ofProgram_iff (p : Program) (extra : List String) :
    Writable (ofProgram p extra (p.data.map measured)).2 ↔
      ∀ d ∈ p.data, ∀ c ∈ (measured d).2, c.Writable := by
  have hzip : p.data.zip (p.data.map measured) = sized p := List.map_prod_left_eq_zip.symm
  have hdata : ∀ l : Layout, Writable (gather addDatum l (sized p)).2 ↔
      ∀ x ∈ sized p, ∀ c ∈ x.2.2, c.Writable := fun l =>
    writable_gather_iff (R := fun _ => True) (fun _ _ _ => trivial)
      (fun l _ x _ => writable_addDatum l x) trivial
  simp only [ofProgram, hzip, gather_addRoutine, writable_append, hdata,
    writable_gather writable_addExtension, writable_gather writable_addLibrary,
    writable_gather writable_addConstant, writable_gather writable_addLine, writable_dataFindings,
    writable_codeFindings, true_and, and_true]
  exact List.forall_mem_map

/-! ### The constants of a layout -/

/-- Declaring a symbol of a layout declares it in the table. -/
theorem declare_symbols (l : Layout) (kind : SymbolKind) (name : String) (value : Int)
    (pos : Position) : ∃ v, (kind = .constant → v = some value) ∧
      (l.declare kind name value pos).1.symbols = l.symbols.declare ⟨name, kind, v, some pos⟩ := by
  unfold declare
  split
  · rename_i earlier htaken
    refine ⟨some value, fun _ => rfl, ?_⟩
    simp only [SymbolTable.declare, htaken]
  · split_ifs with hreach
    · refine ⟨none, fun hkind => ?_, rfl⟩
      simp [hkind] at hreach
    · exact ⟨some value, fun _ => rfl, rfl⟩

/-- Routines and data leave the constants alone. -/
theorem declare_get?_const (l : Layout) {kind : SymbolKind} (h : kind.space ≠ .const)
    (name : String) (value : Int) (pos : Position) (other : String) :
    (l.declare kind name value pos).1.symbols.get? .const other = l.symbols.get? .const other := by
  obtain ⟨v, -, hsymbols⟩ := l.declare_symbols kind name value pos
  rw [hsymbols, SymbolTable.get?_declare, if_neg, Option.or_none]
  exact fun hat => h (SymbolTable.isAt_iff.mp hat).1

/-- The first constant of a name is the one that counts. -/
theorem gather_addConstant_get? (l : Layout) (ds : List ConstantDecl) (name : String) :
    (gather addConstant l ds).1.symbols.get? .const name =
      (l.symbols.get? .const name).or ((ds.find? (·.name = name)).map constantSymbol) := by
  induction ds generalizing l with
  | nil => simp
  | cons d ds ih =>
    obtain ⟨v, hv, hsymbols⟩ := l.declare_symbols .constant d.name d.value.value d.pos
    have hstep : (l.addConstant d).1.symbols = l.symbols.declare (constantSymbol d) := by
      rw [constantSymbol, ← hv rfl]
      exact hsymbols
    rw [gather_cons, ih, hstep, SymbolTable.get?_declare, Option.or_assoc, List.find?_cons]
    by_cases hd : d.name = name <;> simp [hd, Symbol.isAt, constantSymbol, SymbolKind.space]

theorem addRoutine_get?_const (l : Layout) (r : Routine) (name : String) :
    (l.addRoutine r).1.symbols.get? .const name = l.symbols.get? .const name := by
  have hopen : (l.openRoutine r).1.symbols.get? .const name = l.symbols.get? .const name := by
    unfold openRoutine
    split
    · exact l.declare_get?_const (by decide) _ l.codeSize r.pos name
    · split_ifs <;> rfl
  have hnode : ∀ l n, (addNode l n).1.symbols.get? .const name = l.symbols.get? .const name := by
    intro l n
    cases n with
    | label other pos => exact l.declare_get?_const (by decide) other l.codeSize pos name
    | instruction i => rfl
  exact (gather_frame (fun l : Layout => l.symbols.get? .const name) hnode _ r.body).trans hopen

/-- **The constants of a layout** are those of the program, whatever else it declares. -/
theorem ofProgram_get?_const (p : Program) (extra : List String)
    (sizes : List (Nat × List Cause)) (name : String) :
    (ofProgram p extra sizes).1.symbols.get? .const name =
      (p.constants.find? (·.name = name)).map constantSymbol := by
  have hextension : ∀ l x, (addExtension l x).1.symbols = l.symbols := by
    intro l x
    unfold addExtension
    split <;> rfl
  have hlibrary : ∀ l d, (addLibrary l d).1.symbols = l.symbols := by
    intro l d
    unfold addLibrary
    split_ifs <;> rfl
  have hdatum : ∀ l x, (addDatum l x).1.symbols.get? .const name = l.symbols.get? .const name :=
    fun l x => l.declare_get?_const (by decide) x.1.name l.dataSize x.1.pos name
  have hopens : ∀ asked ds,
      (gather addLibrary (gather addExtension {} asked).1 ds).1.symbols = {} := fun asked ds =>
    (gather_frame Layout.symbols hlibrary _ ds).trans
      (gather_frame Layout.symbols hextension {} asked)
  have hdata : ∀ l ds, (gather addDatum l ds).1.symbols.get? .const name =
      l.symbols.get? .const name :=
    gather_frame (fun l : Layout => l.symbols.get? .const name) hdatum
  have hcode : ∀ l rs, (gather addRoutine l rs).1.symbols.get? .const name =
      l.symbols.get? .const name :=
    gather_frame (fun l : Layout => l.symbols.get? .const name)
      fun l r => l.addRoutine_get?_const r name
  simp only [ofProgram]
  rw [hcode, hdata, gather_addConstant_get?, hopens]
  rfl

end Layout

/-! ### Data -/

/-- The report on a number of a type can be written exactly if the number can. -/
theorem valueCause?_writable_iff {d : DataDecl} {width : Nat} {signed : Bool}
    (htype : (d.type, width, signed) ∈ numericTypes) {i : Immediate} :
    (∀ c ∈ valueCause? d width signed (.immediate i), c.Writable) ↔
      Numeral.isOverlong i.value = false := by
  have hwidth : ∀ x ∈ numericTypes, 8 * x.2.1 ≤ 256 := by decide
  by_cases hfits : Integer.fits i.value (8 * width) signed = true
  · simp [valueCause?, hfits, Numeral.not_isOverlong_of_fits hfits (hwidth _ htype)]
  · simp [valueCause?, hfits, Cause.Writable, Cause.shown]

/-- The reports on bytes can be written: the numbers of a source have a text, which is shown in
place of the value. -/
theorem measured_writable_of_blob {d : DataDecl} (h : d.Plain) (hstring : d.type ≠ stringType)
    (hblob : d.type = blobType) : ∀ c ∈ (measured d).2, c.Writable := by
  obtain ⟨numbers, hvalues, hnumbers⟩ := h.resolve_left fun h => hstring h.1
  rw [measured, datumSize, if_neg hstring, if_pos hblob]
  rcases d.values.mapM blobOf with e | blobs
  · simp [Except.toOption]
  · intro c hc
    obtain ⟨⟨v, blob⟩, hmem, hc⟩ := List.mem_filterMap.mp hc
    have hv := (List.of_mem_zip hmem).1
    rw [hvalues] at hv
    obtain ⟨i, hi, rfl⟩ := List.mem_map.mp hv
    simp only [blobCause?] at hc
    split_ifs at hc
    cases hc
    simp [Cause.Writable, Cause.shown, Operand.shown, (hnumbers i hi).ne_empty]

/-- The reports on numbers of a type can be written, unless one of the numbers has too many
digits. -/
theorem valueCauses_writable_iff {d : DataDecl} {width : Nat} {signed : Bool}
    (hmem : (d.type, width, signed) ∈ numericTypes) :
    (∀ c ∈ d.values.filterMap (valueCause? d width signed), c.Writable) ↔ ¬ d.ShowsLong := by
  have htype := numericType?_eq_some.mpr hmem
  constructor
  · rintro hall ⟨width', signed', i, hmem', hi, hlong⟩
    cases htype.symm.trans (numericType?_eq_some.mpr hmem')
    have hshort := (valueCause?_writable_iff hmem).mp fun c hc =>
      hall c (List.mem_filterMap.mpr ⟨_, hi, hc⟩)
    rw [hshort] at hlong
    cases hlong
  · intro hno c hc
    obtain ⟨v, hv, hc⟩ := List.mem_filterMap.mp hc
    cases v with
    | immediate i =>
      refine (valueCause?_writable_iff hmem).mpr ?_ c hc
      by_contra hlong
      exact hno ⟨width, signed, i, hmem, hv, by simpa using hlong⟩
    | _ => cases hc

/-- **The reports on a declaration of data can be written**, unless it is of numbers and one of
them has too many digits. -/
theorem measured_writable_iff {d : DataDecl} (h : d.Plain) :
    (∀ c ∈ (measured d).2, c.Writable) ↔ ¬ d.ShowsLong := by
  by_cases hstring : d.type = stringType
  · refine iff_of_true ?_ ?_
    · rw [measured, datumSize, if_pos hstring]
      rcases d.values.mapM rawBytes? with _ | strings <;>
        simp [Except.toOption, Cause.Writable, Cause.shown]
    · rintro ⟨width, signed, i, htype, -⟩
      exact (type_ne_of_numeric htype).1 hstring
  by_cases hblob : d.type = blobType
  · refine iff_of_true (measured_writable_of_blob h hstring hblob) ?_
    rintro ⟨width, signed, i, htype, -⟩
    exact (type_ne_of_numeric htype).2 hblob
  rw [measured, datumSize, if_neg hstring, if_neg hblob]
  rcases htype : numericType? d.type with _ | ⟨width, signed⟩
  · refine iff_of_true (by simp [Except.toOption, Cause.Writable, Cause.shown]) ?_
    rintro ⟨width, signed, i, hmem, -⟩
    rw [numericType?_eq_some.mpr hmem] at htype
    cases htype
  · exact valueCauses_writable_iff (numericType?_eq_some.mp htype)

/-! ### Operands -/

theorem checkValue_writable_iff {bits : Nat} {signed : Bool} {value : Int} {text : String}
    (hbits : bits ≤ 256) :
    (∀ c, Scope.checkValue bits signed value text = .error c → c.Writable) ↔
      Numeral.isOverlong value = false := by
  by_cases hfits : Integer.fits value bits signed = true
  · simp [Scope.checkValue, hfits, Numeral.not_isOverlong_of_fits hfits hbits]
  · simp [Scope.checkValue, hfits, Cause.Writable, Cause.shown]

theorem lookup_writable {s : Scope} {name : String} {kind : SymbolKind} {c : Cause}
    (h : s.lookup name kind = .error c) : c.Writable := by
  unfold Scope.lookup Scope.missing at h
  split at h
  · cases h
  · cases h
    split <;> simp [Cause.Writable, Cause.shown]

section Slots
variable {p : Program} {s : Scope} {mnemonic : String}

/-- A name in the slot of a number is shown as the value of its constant, if it has one. -/
theorem checkImmediate_symbol_writable_iff {bits : Nat} {signed : Bool} (hbits : bits ≤ 256)
    {name : String} (hconst : s.symbols.get? .const name =
      (p.constants.find? (·.name = name)).map constantSymbol) :
    (∀ c, s.checkImmediate mnemonic bits signed (.symbol name) = .error c → c.Writable) ↔
      ¬ p.ShowsOperand (.immediate bits signed) (.symbol name) := by
  have hlookup : s.symbols.get? SymbolKind.constant.space name = _ := hconst
  rcases hd : p.constants.find? (·.name = name) with _ | d
  · have hmissing : p.constant? name = none := by simp [Program.constant?, hd]
    refine iff_of_true (fun c hc => ?_) ?_
    · rcases hs : s.lookup name .constant with c' | symbol
      · simp only [Scope.checkImmediate, hs] at hc
        cases hc
        exact lookup_writable hs
      · rw [lookup_eq_ok.mp hs, hd] at hlookup
        cases hlookup
    · rintro (_ | ⟨value, -⟩ | _)
      rw [hmissing] at value
      cases value
  · have hvalue : p.constant? name = some d.value.value := by simp [Program.constant?, hd]
    have hok : s.lookup name .constant = .ok (constantSymbol d) :=
      lookup_eq_ok.mpr (hlookup.trans (by rw [hd]; rfl))
    have hcheck : s.checkImmediate mnemonic bits signed (.symbol name) =
        Scope.checkValue bits signed d.value.value name := by
      rw [Scope.checkImmediate, hok]
      rfl
    rw [hcheck, checkValue_writable_iff hbits]
    constructor
    · rintro h (_ | ⟨value, long⟩ | _)
      cases hvalue.symm.trans value
      rw [h] at long
      cases long
    · intro h
      by_contra hlong
      exact h (.constant hvalue (by simpa using hlong))

variable {operand : Operand} (hsource : ∀ i, operand = .immediate i → i.text ≠ "")
include hsource

/-- An operand of a source shows the index of a register, and no other integer. -/
theorem shown_writable_iff :
    (∀ v ∈ operand.shown, Numeral.isOverlong v = false) ↔
      ∀ set index, operand = .register set index → Numeral.isOverlong index = false := by
  cases operand with
  | immediate i => simp [Operand.shown, hsource i rfl]
  | _ => simp [Operand.shown]

theorem checkRegister_writable {banks : List Bank} {sets : List String} {c : Cause}
    (h : Scope.checkRegister mnemonic banks sets operand = .error c) : c.Writable := by
  cases operand with
  | register token index =>
    simp only [Scope.checkRegister] at h
    split at h
    · cases h
      simp [Cause.Writable, Cause.shown]
    · split_ifs at h
      · cases h
        simp [Cause.Writable, Cause.shown]
      · split at h <;> cases h
        simp [Cause.Writable, Cause.shown]
      · cases h
        simp [Cause.Writable, Cause.shown]
  | _ =>
    cases h
    exact (shown_writable_iff hsource).mpr (by simp)

/-- A cause that shows a refused operand can be written exactly if the index of a register can. -/
theorem refused_writable_iff {c : Cause} (hc : c.shown = operand.shown) {slot : Slot}
    (hslot : ∀ banks sets, slot ≠ .register banks sets)
    (hother : ∀ bits signed, slot = .immediate bits signed →
      (∀ i, operand ≠ .immediate i) ∧ ∀ name, operand ≠ .symbol name) :
    c.Writable ↔ ¬ p.ShowsOperand slot operand := by
  rw [Cause.Writable, hc, shown_writable_iff hsource]
  constructor
  · intro h hshows
    cases hshows with
    | literal long => exact (hother _ _ rfl).1 _ rfl
    | constant value long => exact (hother _ _ rfl).2 _ rfl
    | index misplaced long =>
      rw [h _ _ rfl] at long
      cases long
  · rintro h set index rfl
    by_contra hlong
    exact h (.index hslot (by simpa using hlong))

theorem checkImmediate_writable_iff {bits : Nat} {signed : Bool} (hbits : bits ≤ 256)
    (hconst : ∀ name, s.symbols.get? .const name =
      (p.constants.find? (·.name = name)).map constantSymbol) :
    (∀ c, s.checkImmediate mnemonic bits signed operand = .error c → c.Writable) ↔
      ¬ p.ShowsOperand (.immediate bits signed) operand := by
  cases operand with
  | immediate i =>
    simp only [Scope.checkImmediate, checkValue_writable_iff hbits]
    constructor
    · rintro h (⟨long⟩ | _ | _)
      rw [h] at long
      cases long
    · intro h
      by_contra hlong
      exact h (.literal (by simpa using hlong))
  | symbol name => exact checkImmediate_symbol_writable_iff hbits (hconst name)
  | _ =>
    simpa [Scope.checkImmediate] using refused_writable_iff hsource rfl (by simp) (by simp)

/-- **The report on an operand can be written**, unless it shows an integer with too many digits. -/
theorem checkOperand_writable_iff
    (hconst : ∀ name, s.symbols.get? .const name =
      (p.constants.find? (·.name = name)).map constantSymbol) {slot : Slot}
    (hbits : ∀ bits signed, slot = .immediate bits signed → bits ≤ 256) :
    (∀ c, s.checkOperand mnemonic operand slot = .error c → c.Writable) ↔
      ¬ p.ShowsOperand slot operand := by
  cases slot with
  | register banks sets =>
    simp only [Scope.checkOperand]
    refine iff_of_true (fun c h => checkRegister_writable hsource h) ?_
    rintro (_ | _ | ⟨misplaced, -⟩)
    exact misplaced _ _ rfl
  | immediate bits signed =>
    simp only [Scope.checkOperand]
    exact checkImmediate_writable_iff hsource (hbits bits signed rfl) hconst
  | label =>
    simp only [Scope.checkOperand]
    cases operand with
    | symbol name =>
      refine iff_of_true (fun c hc => ?_) (by rintro ⟨⟩)
      rcases hs : s.lookup name .localLabel with c' | symbol <;>
        simp only [Scope.checkLabel, hs] at hc <;> cases hc
      exact lookup_writable hs
    | _ => simpa [Scope.checkLabel] using refused_writable_iff hsource rfl (by simp) (by simp)
  | data =>
    simp only [Scope.checkOperand]
    cases operand with
    | symbol name =>
      refine iff_of_true (fun c hc => ?_) (by rintro ⟨⟩)
      rcases hs : s.lookup name .dataSymbol with c' | symbol <;>
        simp only [Scope.checkDatum, hs] at hc <;> cases hc
      exact lookup_writable hs
    | _ => simpa [Scope.checkDatum] using refused_writable_iff hsource rfl (by simp) (by simp)
  | foreign =>
    simp only [Scope.checkOperand]
    cases operand with
    | call library routine => exact iff_of_true (fun c hc => by cases hc) (by rintro ⟨⟩)
    | _ => simpa [Scope.checkCall] using refused_writable_iff hsource rfl (by simp) (by simp)

end Slots

/-! ### Instructions -/

theorem extensionCauses_writable {mask : Mask} {i : Instruction} {spec : Spec} :
    ∀ c ∈ extensionCauses mask i spec, c.Writable := by
  unfold extensionCauses
  split_ifs <;> simp [Cause.Writable, Cause.shown]

theorem setCauses_writable {i : Instruction} {spec : Spec} {operands : List Operand} :
    ∀ c ∈ setCauses i spec operands, c.Writable := by
  unfold setCauses
  split_ifs <;> simp [Cause.Writable, Cause.shown]

section Instructions
variable {p : Program} {l : Layout} (hconst : ∀ name, l.symbols.get? .const name =
  (p.constants.find? (·.name = name)).map constantSymbol)
include hconst

theorem checkOperands_writable_iff {i : Instruction} {pairs : List (Operand × Slot)}
    (hsource : ∀ pair ∈ pairs, ∀ j, pair.1 = .immediate j → j.text ≠ "")
    (hbits : ∀ pair ∈ pairs, ∀ bits signed, pair.2 = .immediate bits signed → bits ≤ 256)
    {s : Scope} (hs : s.Over l) :
    (∀ c ∈ (s.checkOperands i pairs).2.filterMap causeOf?, c.Writable) ↔
      ∀ pair ∈ pairs, ¬ p.ShowsOperand pair.2 pair.1 := by
  induction pairs generalizing s with
  | nil => simp [Scope.checkOperands]
  | cons pair pairs ih =>
    rw [List.forall_mem_cons] at hsource hbits ⊢
    have hfirst : (∀ c, s.checkOperand i.mnemonic pair.1 pair.2 = .error c → c.Writable) ↔
        ¬ p.ShowsOperand pair.2 pair.1 :=
      checkOperand_writable_iff hsource.1
        (fun name => (hs.get? .const name (by decide)).trans (hconst name)) hbits.1
    rw [← hfirst, ← ih hsource.2 hbits.2 (hs.addOperand i.pos pair.2 pair.1)]
    rcases hr : s.checkOperand i.mnemonic pair.1 pair.2 with c | meaning <;>
      simp [Scope.checkOperands, hr, causeOf?]

/-- **The reports on an instruction can be written**, unless one shows an integer with too many
digits. -/
theorem Progress.writable_add_iff {mask : Mask} {progress : Progress} {i : Instruction}
    (hsource : ∀ j, .immediate j ∈ i.operands → j.text ≠ "") (hp : progress.scope.Over l) :
    Writable (progress.add mask i).2 ↔ ¬ i.ShowsLong p := by
  rw [add_eq, writable_map]
  rcases hspec : Spec.named? i.mnemonic with _ | spec
  · refine iff_of_true (by simp [check, hspec, Cause.Writable, Cause.shown]) ?_
    simp [Instruction.ShowsLong, hspec]
  by_cases hcount : i.operands.length = spec.slots.length
  · have hpairs : ∀ pair ∈ i.operands.zip spec.slots, ∀ j, pair.1 = .immediate j → j.text ≠ "" :=
      fun pair hpair j hj => hsource j (hj ▸ (List.of_mem_zip hpair).1)
    have hbits : ∀ pair ∈ i.operands.zip spec.slots, ∀ bits signed,
        pair.2 = .immediate bits signed → bits ≤ 256 := by
      intro pair hpair bits signed hslot
      have hsize := Spec.slot_size spec (Spec.mem_all_of_named? hspec) _ (List.of_mem_zip hpair).2
      simp only [hslot, Slot.size, wordSize] at hsize
      omega
    have hshows : ¬ i.ShowsLong p ↔
        ∀ pair ∈ i.operands.zip spec.slots, ¬ p.ShowsOperand pair.2 pair.1 := by
      simp [Instruction.ShowsLong, hspec, hcount]
    rw [hshows, ← checkOperands_writable_iff (i := i) hconst hpairs hbits hp]
    simp only [check, hspec, hcount, ne_eq, not_true, if_false, addSpec]
    split_ifs with hbefore
    · rw [List.isEmpty_iff, List.append_eq_nil_iff] at hbefore
      rw [hbefore.2]
      exact iff_of_true setCauses_writable (by simp)
    · rw [List.forall_mem_append]
      exact and_iff_right extensionCauses_writable
  · refine iff_of_true ?_ (by simp [Instruction.ShowsLong, hspec, hcount])
    simp only [check, hspec, hcount, ne_eq, not_false_eq_true, if_true, List.forall_mem_append]
    exact ⟨extensionCauses_writable, by simp [Cause.Writable, Cause.shown]⟩

end Instructions

/-! ### The whole analysis -/

section Source
variable {text : String} {file : Option String} {p : Program}
  (hparse : parse names text file = .ok p)
include hparse

theorem immediate_text_ne_empty {i : Instruction} (hi : i ∈ p.instructions) (j : Immediate)
    (hj : .immediate j ∈ i.operands) : j.text ≠ "" := by
  obtain ⟨a, hargument, hoperand⟩ := (parse_comes hparse hi).argument hj
  cases a with
  | number value =>
    obtain ⟨j', hj', heq⟩ := Steps.map_eq_ok.mp hoperand
    cases heq
    exact (Token.Is.isNumber hargument hj').ne_empty
  | indexed set index =>
    obtain ⟨j', -, heq⟩ := Steps.bind_eq_ok.mp hoperand
    cases heq
  | _ => cases hoperand

/-- **All reports on a program of a source can be written**, unless one shows an integer with too
many digits. -/
theorem writable_found_iff (extra : List String) : Writable (found p extra) ↔ ¬ p.ShowsLong := by
  have hdata : (∀ d ∈ p.data, ∀ c ∈ (measured d).2, c.Writable) ↔ ∀ d ∈ p.data, ¬ d.ShowsLong :=
    forall₂_congr fun d hd => measured_writable_iff ((parse_written hparse).data hd).2
  have hdeclared := Layout.writable_ofProgram_iff p extra
  have hconst := Layout.ofProgram_get?_const p extra (p.data.map measured)
  unfold found
  generalize Layout.ofProgram p extra (p.data.map measured) = laid at hdeclared hconst ⊢
  obtain ⟨l, declared⟩ := laid
  have hkeep : ∀ (q : Progress) i, q.scope.Over l → (q.add l.mask i).1.scope.Over l :=
    fun q i hq => Progress.over_add hq i
  have hstep : ∀ q : Progress, q.scope.Over l → ∀ i ∈ p.instructions,
      (Writable (q.add l.mask i).2 ↔ ¬ i.ShowsLong p) := fun q hq i hi =>
    Progress.writable_add_iff hconst (immediate_text_ne_empty hparse hi) hq
  have hcode := writable_gather_iff hkeep hstep l.over_start
  simp only [writable_append, (clean_unusedFindings _ _ _).writable, and_true, hdeclared, hdata,
    hcode]
  simp [Program.ShowsLong]

/-- **The analysis of a program of a source fails** exactly if a report shows an integer with too
many digits. -/
theorem ofProgram_eq_overlong_iff (extra : List String) (name : Option String) :
    (ofProgram p extra name = .error .overlong ↔ p.ShowsLong) ∧
      ∀ e, ofProgram p extra name = .error e → e = .overlong := by
  have hgauged : ∀ d ∈ p.data, Gauged d := fun d hd =>
    gauged_of_plain ((parse_written hparse).data hd).2
  have hwritable := writable_found_iff hparse extra
  obtain ⟨hshort, a, ha, -⟩ | ⟨hlong, herror⟩ := ofProgram_cases hgauged extra name
  · have hno := hwritable.mp (any_isOverlong_eq_false.mp hshort)
    simp [ha, hno]
  · have hshows : p.ShowsLong := by
      by_contra hno
      rw [any_isOverlong_eq_false.mpr (hwritable.mpr hno)] at hlong
      cases hlong
    simp [herror, hshows]

end Source

theorem exists_error_iff {a : Analysis} :
    (∃ d ∈ a.diagnostics, d.severity = .error) ↔ a.ok = false := by
  simp [diagnostics, ok, Finding.isError, Finding.diagnostic]

end Analysis

/-! ### Answers -/

theorem Syntax.literals_ne_nil {text : String} {file : Option String} {items : Nat}
    {es : List (Position × LiteralError)}
    (h : parse names text file = .error (.literals items es)) : es ≠ [] := by
  unfold parse at h
  split at h
  · cases h
  · split at h
    · cases h
    · split at h
      · cases h
      · rename_i hne
        cases h
        exact hne

namespace Assembly

/-- The answer has an object, or a report of an error, and not both. -/
def Decided (r : Assembly) : Prop := r.object = none ↔ ∃ d ∈ r.reports, d.severity = .error

/-- **An analysed program gets an answer.** -/
theorem ofAnalysis_decided {text : String} {file : Option String} {p : Program}
    {extra : List String} {a : Analysis} (hparse : parse names text file = .ok p)
    (ha : Analysis.ofProgram p extra file = .ok a) :
    ∃ r, ofAnalysis p a file = .ok r ∧ r.Decided := by
  by_cases hok : a.ok = true
  · obtain ⟨o, ho, -⟩ := Analysis.exists_encode (parse_written hparse)
      (Analysis.ofProgram_accepted ha hok) hok none
    simp only [ofAnalysis, hok, if_true, ho]
    refine ⟨_, rfl, iff_of_false (by simp) ?_⟩
    simp only [Analysis.exists_error_iff, hok]
    simp
  · simp only [ofAnalysis, hok]
    exact ⟨_, rfl, iff_of_true rfl (Analysis.exists_error_iff.mpr (by simpa using hok))⟩

/-- **A text that denotes no program gets an answer**, unless a number is too long to be read. -/
theorem ofSourceError_decided {text : String} {file : Option String} {e : SourceError}
    (hparse : parse names text file = .error e) (he : e ≠ .overlong) :
    ∃ r, ofSourceError file e = .ok r ∧ r.Decided := by
  cases e with
  | overlong => exact absurd rfl he
  | fault f => exact ⟨_, rfl, iff_of_true rfl ⟨_, List.mem_singleton.mpr rfl, rfl⟩⟩
  | literals items es =>
    refine ⟨_, rfl, iff_of_true rfl ?_⟩
    rcases hes : es with _ | ⟨e, es'⟩
    · exact absurd hes (literals_ne_nil hparse)
    · exact ⟨_, List.mem_cons_self, rfl⟩

/-- The three ways in which assembling a text can end. -/
theorem ofText_cases (text : String) (file : Option String) (extra : List String) :
    (∃ r, ofText names text file extra = .ok r ∧ r.Decided ∧ ¬ HasLongNumber text ∧
      ∀ p, parse names text file = .ok p → ¬ p.ShowsLong) ∨
    (ofText names text file extra = .error .overlongLiteral ∧ HasLongNumber text) ∨
    (ofText names text file extra = .error (.number .overlong) ∧
      ∃ p, parse names text file = .ok p ∧ p.ShowsLong) := by
  have hlong := @parse_eq_overlong_iff names text file
  rcases hparse : parse names text file with e | p
  · rw [hparse, Except.error.injEq] at hlong
    by_cases he : e = .overlong
    · refine .inr (.inl ⟨?_, hlong.mp he⟩)
      simp only [ofText, hparse, he, ofSourceError]
    · obtain ⟨r, hr, hdecided⟩ := ofSourceError_decided hparse he
      refine .inl ⟨r, ?_, hdecided, fun h => he (hlong.mpr h), by simp⟩
      simp only [ofText, hparse, hr]
  · have hshort : ¬ HasLongNumber text := by simp [← hlong, hparse]
    obtain ⟨hshows, honly⟩ := Analysis.ofProgram_eq_overlong_iff hparse extra file
    rcases ha : Analysis.ofProgram p extra file with e | a
    · refine .inr (.inr ⟨?_, p, rfl, hshows.mp (honly e ha ▸ ha)⟩)
      simp only [ofText, hparse, ha, honly e ha]
    · obtain ⟨r, hr, hdecided⟩ := ofAnalysis_decided hparse ha
      have hno : ¬ p.ShowsLong := by simp [← hshows, ha]
      refine .inl ⟨r, ?_, hdecided, hshort, fun p' hp' => ?_⟩
      · simp only [ofText, hparse, ha, hr]
      · cases hp'
        exact hno

/-- **The assembler answers with reports**, and with an object exactly if none of them is an error,
unless a number gets in the way: a text that derives from the grammar has a number that is too long
to be read, or a report on its program would show an integer with too many digits. Nothing else
fails, whatever characters have names. -/
theorem ofText_answers_iff (names : CharacterNames) (text : String) (file : Option String)
    (extra : List String) :
    ((∃ r, ofText names text file extra = .ok r) ↔
      ¬ HasLongNumber text ∧ ∀ p, parse names text file = .ok p → ¬ p.ShowsLong) ∧
    (∀ e, ofText names text file extra = .error e →
      e = .overlongLiteral ∧ HasLongNumber text ∨
      e = .number .overlong ∧ ∃ p, parse names text file = .ok p ∧ p.ShowsLong) ∧
    ∀ r, ofText names text file extra = .ok r →
      (r.object = none ↔ ∃ d ∈ r.reports, d.severity = .error) := by
  obtain ⟨r, hof, hdecided, hfree⟩ | ⟨hof, hlong⟩ | ⟨hof, p, hparse, hshows⟩ :=
    ofText_cases text file extra
  · rw [hof]
    refine ⟨iff_of_true ⟨r, rfl⟩ hfree, by simp, fun r' hr' => ?_⟩
    cases hr'
    exact hdecided
  · rw [hof]
    refine ⟨iff_of_false (by simp) fun h => h.1 hlong, fun e he => ?_, by simp⟩
    cases he
    exact .inl ⟨rfl, hlong⟩
  · rw [hof]
    refine ⟨iff_of_false (by simp) fun h => h.2 p hparse hshows, fun e he => ?_, by simp⟩
    cases he
    exact .inr ⟨rfl, p, hparse, hshows⟩

/-- A source whose main routine has an instruction that does not exist. -/
def misspelledSource : String := ".MAIN\nnopp\n"

theorem misspelled_answered : ∃ r, ofText nameless misspelledSource none ["float"] = .ok r ∧
    r.object = none ∧ ∃ d ∈ r.reports, d.severity = .error := by
  have hkernel : (ofText nameless misspelledSource none ["float"]).toOption.map (·.object) =
      some none := by decide +kernel
  rcases hr : ofText nameless misspelledSource none ["float"] with e | r
  · rw [hr] at hkernel
    cases hkernel
  · rw [hr] at hkernel
    have hnone : r.object = none := by simpa [Except.toOption] using hkernel
    exact ⟨r, rfl, hnone,
      ((ofText_answers_iff nameless misspelledSource none ["float"]).2.2 r hr).mp hnone⟩

/-! ### A source without an answer -/

/-- A source that declares one constant. -/
def constantSource (number : List Char) : String := ".CONST\nx = " ++ String.ofList number ++ "\n"

theorem readStatements_constantSource {w : List Char} (hw : w ∈ Lexeme.number) :
    readStatements (constantSource w) =
      .ok [.constant ⟨.name, "x", ⟨2, 1⟩⟩ ⟨.number, String.ofList w, ⟨2, 5⟩⟩] := by
  have htext : (constantSource w).toList = ['.', 'C', 'O', 'N', 'S', 'T'] ++ (['\n'] ++
      (['x'] ++ ([' '] ++ (['='] ++ ([' '] ++ ((String.ofList w).toList ++ ['\n'])))))) := by
    simp [constantSource]
  have hname : IsName "x" := ⟨'x', [], rfl, rfl, by simp⟩
  have hnumber : (String.ofList w).toList ∈ Lexeme.number := by rwa [String.toList_ofList]
  refine readStatements_of_goes_closed htext ?_ ((goes_fixed (k := .keyword .const) rfl (by decide)
    rfl).append ((goes_newline rfl).append ((goes_name hname ⟨' ', _, rfl, rfl⟩ rfl).append
      (goes_blank.append ((goes_fixed (k := .equals) rfl (by decide) rfl).append (goes_blank.append
        ((goes_number hnumber ⟨'\n', _, rfl, rfl⟩ rfl).append (goes_newline rfl))))))))
  simp only [← List.append_assoc, List.getLast?_concat]

theorem parse_constantSource {w : List Char} (hw : w ∈ Lexeme.number) (hlong : ¬ Numeral.Short w)
    (file : Option String) : parse names (constantSource w) file = .error .overlong := by
  have hread := readStatements_constantSource hw
  generalize hvalue : (⟨.number, String.ofList w, ⟨2, 5⟩⟩ : Token) = value at hread
  have htext : value.text.toList = w := by rw [← hvalue, String.toList_ofList]
  rcases hitems : itemsOf names [.constant ⟨.name, "x", ⟨2, 1⟩⟩ value] with e | items
  · simp only [parse, hread, hitems]
  · have hnumber : value.terminal = .number := by rw [← hvalue]
    have hisRead := (itemsOf_isOk_iff (readStatements_typed hread)).mp ⟨items, hitems⟩ value
      List.mem_cons_self hnumber
    have hshort := (Token.isRead_iff (htext ▸ hw)).mp hisRead
    exact absurd (htext ▸ hshort) hlong

theorem ofText_constantSource_ones {n : Nat} (hn : Numeral.maxDigits < n) :
    ofText names (constantSource (List.replicate n '1')) = .error .overlongLiteral := by
  have hpos : n ≠ 0 := by omega
  have hdigits : List.replicate n '1' ∈ Lexeme.decimal := by
    refine Language.mem_mul.mpr ⟨_, Lexeme.mem_many.mpr ⟨by simp [hpos], fun c hc => ?_⟩, [],
      Language.nil_mem_kstar _, List.append_nil _⟩
    rw [List.eq_of_mem_replicate hc]
    rfl
  have hnumber : List.replicate n '1' ∈ Lexeme.number :=
    Language.mem_mul.mpr ⟨[], .inl rfl, _, .inr hdigits, rfl⟩
  have hlong : ¬ Numeral.Short (List.replicate n '1') := by
    intro hshort
    have hle := hshort (Language.mem_mul.mpr ⟨[], .inl rfl, _, hdigits, rfl⟩)
    rw [List.filter_replicate_of_pos (by decide), List.length_replicate] at hle
    omega
  simp only [ofText, parse_constantSource hnumber hlong, ofSourceError]

/-- One digit too many, and there is no answer. -/
theorem long_constant_unanswered :
    ofText nameless (constantSource (List.replicate 4301 '1')) = .error .overlongLiteral :=
  ofText_constantSource_ones (by decide)

end Assembly

end AluVM
