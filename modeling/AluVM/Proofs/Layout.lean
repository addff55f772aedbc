import AluVM.Proofs.Declarations
import Mathlib.Algebra.Ring.Nat
import Mathlib.Tactic.SplitIfs

/-! # The layout of an accepted program

The first pass places everything that a program declares. If it finds no error, the table of
symbols is known exactly (`Laid`): the constants, the data at the sums of the sizes before them,
and the routines and labels at the size of a word times the number of instructions before them, all
in source order.

The code of a program is one list of lines for this purpose (`Program.lines`), so that routines
and their bodies are one recursion: `gather_addRoutine`. -/

namespace AluVM.Syntax

/-- A line of code: the start of the main routine, the declaration of a routine or label, or an
instruction. -/
inductive CodeLine where
  | entry (pos : Position)
  | mark (kind : SymbolKind) (name : String) (pos : Position)
  | word (i : Instruction)

/-- The line of a node. -/
def Node.line : Node → CodeLine
  | label name pos => .mark .localLabel name pos
  | instruction i => .word i

/-- The line that opens a routine. -/
def Routine.opening (r : Routine) : CodeLine :=
  match r.name with
  | some name => .mark .exportedLabel name r.pos
  | none => .entry r.pos

/-- The lines of a routine. -/
def Routine.lines (r : Routine) : List CodeLine := r.opening :: r.body.map Node.line

/-- The lines of code of a program in source order. -/
def Program.lines (p : Program) : List CodeLine := p.routines.flatMap Routine.lines

/-- The instruction of a line. -/
def CodeLine.word? : CodeLine → Option Instruction
  | word i => some i
  | _ => none

/-- The name that a line declares. -/
def CodeLine.name? : CodeLine → Option String
  | mark _ name _ => some name
  | _ => none

/-- The instructions among lines. -/
def wordsOf (lines : List CodeLine) : List Instruction := lines.filterMap CodeLine.word?

theorem wordsOf_append (xs ys : List CodeLine) : wordsOf (xs ++ ys) = wordsOf xs ++ wordsOf ys :=
  List.filterMap_append

theorem wordsOf_lines_routine (r : Routine) :
    wordsOf r.lines = r.body.filterMap fun | .instruction i => some i | _ => none := by
  have hopen : r.opening.word? = none := by
    unfold Routine.opening
    split <;> rfl
  rw [wordsOf, Routine.lines, List.filterMap_cons_none hopen, List.filterMap_map]
  congr 1
  funext n
  cases n <;> rfl

theorem wordsOf_lines (p : Program) : wordsOf p.lines = p.instructions := by
  unfold Program.lines Program.instructions Program.nodes
  induction p.routines with
  | nil => rfl
  | cons r rs ih =>
    rw [List.flatMap_cons, wordsOf_append, ih, wordsOf_lines_routine, List.flatMap_cons]
    exact List.filterMap_append.symm

end AluVM.Syntax

namespace AluVM

/-- The mask has bits of known extensions only. -/
def Mask.Known (m : Mask) : Prop := ∃ n : Nat, n < 2 ^ 4 ∧ m = Int.ofNat n

theorem Mask.known_bit (e : Extension) : Mask.Known e.bit := by
  cases e <;> exact ⟨_, by decide, rfl⟩

theorem Mask.Known.union {m n : Mask} (hm : m.Known) (hn : n.Known) : (m.union n).Known := by
  obtain ⟨a, ha, rfl⟩ := hm
  obtain ⟨b, hb, rfl⟩ := hn
  exact ⟨a ||| b, Nat.or_lt_two_pow ha hb, rfl⟩

end AluVM

namespace AluVM.Analysis

open Syntax

/-! ### What is declared -/

/-- The symbol of a constant. -/
def constantSymbol (d : ConstantDecl) : Symbol :=
  ⟨d.name, .constant, some d.value.value, some d.pos⟩

/-- The symbol of a placed datum. -/
def PlacedDatum.symbol (q : PlacedDatum) : Symbol :=
  ⟨q.decl.name, .dataSymbol, some q.offset, some q.decl.pos⟩

/-- The places of data of known sizes, the first at a given offset. -/
def placements : (offset : Nat) → List (DataDecl × Nat × List Cause) → List PlacedDatum
  | _, [] => []
  | offset, (d, size, _) :: ds => ⟨d, offset, size⟩ :: placements (offset + size) ds

/-- The symbols that lines of code declare, the first line being at a given offset. -/
def marks : (offset : Nat) → List CodeLine → List Symbol
  | _, [] => []
  | offset, .entry _ :: ls => marks offset ls
  | offset, .mark kind name pos :: ls => ⟨name, kind, some offset, some pos⟩ :: marks offset ls
  | offset, .word _ :: ls => marks (offset + wordSize) ls

/-- The bytes of data of known sizes. -/
def roomOf (ds : List (DataDecl × Nat × List Cause)) : Nat := (ds.map (·.2.1)).sum

theorem placements_append : ∀ (offset : Nat) (xs ys : List (DataDecl × Nat × List Cause)),
    placements offset (xs ++ ys) = placements offset xs ++ placements (offset + roomOf xs) ys
  | _, [], _ => rfl
  | offset, (d, size, cs) :: xs, ys => by
    simp only [List.cons_append, placements, placements_append (offset + size) xs ys, roomOf,
      List.map_cons, List.sum_cons, Nat.add_assoc]

theorem map_decl_placements : ∀ (offset : Nat) (ds : List (DataDecl × Nat × List Cause)),
    (placements offset ds).map (·.decl) = ds.map (·.1)
  | _, [] => rfl
  | offset, (d, size, _) :: ds => by
    simp only [placements, List.map_cons, map_decl_placements (offset + size) ds]

theorem mem_placements : ∀ {offset : Nat} {ds : List (DataDecl × Nat × List Cause)}
    {q : PlacedDatum}, q ∈ placements offset ds → ∃ before cs after,
      ds = before ++ (q.decl, q.size, cs) :: after ∧ q.offset = offset + roomOf before
  | _, [], _, h => by simp [placements] at h
  | offset, (d, size, cs) :: ds, q, h => by
    rcases List.mem_cons.mp h with rfl | h
    · exact ⟨[], cs, ds, rfl, by simp [roomOf]⟩
    · obtain ⟨before, cs', after, rfl, hq⟩ := mem_placements h
      refine ⟨(d, size, cs) :: before, cs', after, rfl, ?_⟩
      rw [hq]
      simp only [roomOf, List.map_cons, List.sum_cons, Nat.add_assoc]

theorem map_name_marks : ∀ (offset : Nat) (ls : List CodeLine),
    (marks offset ls).map (·.name) = ls.filterMap CodeLine.name?
  | _, [] => rfl
  | offset, .entry _ :: ls => map_name_marks offset ls
  | offset, .mark _ name _ :: ls => congrArg (name :: ·) (map_name_marks offset ls)
  | offset, .word _ :: ls => map_name_marks (offset + wordSize) ls

theorem marks_append : ∀ (offset : Nat) (xs ys : List CodeLine),
    marks offset (xs ++ ys) =
      marks offset xs ++ marks (offset + wordSize * (wordsOf xs).length) ys
  | _, [], _ => rfl
  | offset, .entry _ :: xs, ys => marks_append offset xs ys
  | offset, .mark kind name pos :: xs, ys => by
    simp only [List.cons_append, marks, marks_append offset xs ys]
    rfl
  | offset, .word i :: xs, ys => by
    have hlen : (wordsOf (.word i :: xs)).length = (wordsOf xs).length + 1 := rfl
    simp only [List.cons_append, marks, marks_append (offset + wordSize) xs ys, hlen, Nat.mul_add,
      Nat.mul_one]
    congr 2
    omega

/-- **The offset of a routine or label** is the size of a word times the number of instructions
before its declaration. -/
theorem mem_marks : ∀ {offset : Nat} {ls : List CodeLine} {s : Symbol}, s ∈ marks offset ls →
    ∃ before pos after, ls = before ++ .mark s.kind s.name pos :: after ∧
      s.value = some ((offset + wordSize * (wordsOf before).length : Nat) : Int)
  | _, [], _, h => by simp [marks] at h
  | offset, .entry p :: ls, s, h => by
    have h : s ∈ marks offset ls := h
    obtain ⟨before, pos, after, rfl, hv⟩ := mem_marks h
    exact ⟨.entry p :: before, pos, after, rfl, hv⟩
  | offset, .mark kind name pos :: ls, s, h => by
    rcases List.mem_cons.mp h with rfl | h
    · exact ⟨[], pos, ls, rfl, rfl⟩
    · obtain ⟨before, pos', after, rfl, hv⟩ := mem_marks h
      exact ⟨.mark kind name pos :: before, pos', after, rfl, hv⟩
  | offset, .word i :: ls, s, h => by
    have h : s ∈ marks (offset + wordSize) ls := h
    obtain ⟨before, pos, after, rfl, hv⟩ := mem_marks h
    refine ⟨.word i :: before, pos, after, rfl, ?_⟩
    have hlen : (wordsOf (.word i :: before)).length = (wordsOf before).length + 1 := rfl
    rw [hv, hlen, Nat.mul_add]
    congr 2
    omega

namespace Layout

/-! ### One declaration -/

/-- What declaring symbols without an error does to a layout: they are added in order, and they are
apart from one another and in reach. -/
structure Declares (new : List Symbol) (l l' : Layout) : Prop where
  symbols : l'.symbols.newestFirst = new.reverse ++ l.symbols.newestFirst
  distinct : l.symbols.Distinct → l'.symbols.Distinct
  reach : ∀ s ∈ new, s.kind ≠ .constant → ∀ v ∈ s.value, v ≤ maxOffset

theorem Declares.refl (l : Layout) : Declares [] l l := ⟨rfl, id, by simp⟩

theorem Declares.trans {new new' : List Symbol} {l l' l'' : Layout} (h : Declares new l l')
    (h' : Declares new' l' l'') : Declares (new ++ new') l l'' where
  symbols := by rw [h'.symbols, h.symbols]; simp
  distinct hl := h'.distinct (h.distinct hl)
  reach s hs := by
    rcases List.mem_append.mp hs with hs | hs
    · exact h.reach s hs
    · exact h'.reach s hs

theorem not_clean_redefinition (kind : SymbolKind) (name : String) (pos : Position)
    (earlier : Symbol) : ¬ Clean (redefinition kind name pos earlier) := by
  unfold redefinition
  split <;> simp [Finding.isError, Cause.severity]

theorem declare_eq (l : Layout) (kind : SymbolKind) (name : String) (value : Int)
    (pos : Position) : (l.declare kind name value pos).1 =
      { l with symbols := (l.declare kind name value pos).1.symbols } := by
  unfold declare
  split
  · rfl
  · split_ifs <;> rfl

section Frame
variable (l : Layout) (kind : SymbolKind) (name : String) (value : Int) (pos : Position)

@[simp] theorem declare_mask : (l.declare kind name value pos).1.mask = l.mask := by
  rw [declare_eq]

@[simp] theorem declare_libraries :
    (l.declare kind name value pos).1.libraries = l.libraries := by
  rw [declare_eq]

@[simp] theorem declare_data : (l.declare kind name value pos).1.data = l.data := by
  rw [declare_eq]

@[simp] theorem declare_dataSize : (l.declare kind name value pos).1.dataSize = l.dataSize := by
  rw [declare_eq]

@[simp] theorem declare_codeSize : (l.declare kind name value pos).1.codeSize = l.codeSize := by
  rw [declare_eq]

@[simp] theorem declare_entry : (l.declare kind name value pos).1.entry = l.entry := by
  rw [declare_eq]

end Frame

/-- **A declaration without an error.** -/
theorem declare_clean {l : Layout} {kind : SymbolKind} {name : String} {value : Int}
    {pos : Position} (h : Clean (l.declare kind name value pos).2) :
    Declares [⟨name, kind, some value, some pos⟩] l (l.declare kind name value pos).1 := by
  unfold declare at h ⊢
  split at h
  · exact absurd h (not_clean_redefinition _ _ _ _)
  · rename_i hfree
    split_ifs at h ⊢ with hreach
    · simp [Finding.isError, Cause.severity] at h
    · have hnew : l.symbols.declare ⟨name, kind, some value, some pos⟩ =
          ⟨⟨name, kind, some value, some pos⟩ :: l.symbols.newestFirst⟩ :=
        SymbolTable.declare_of_free hfree
      refine ⟨?_, fun hl => SymbolTable.declare_distinct hl, ?_⟩
      · simp only [hnew]
        rfl
      · intro s hs hkind v hv
        rw [List.mem_singleton.mp hs] at hkind hv
        cases hv
        simpa [hkind] using hreach

/-! ### The phases of the pass -/

/-- What declaring constants without an error does to a layout. -/
structure AddsConstants (ds : List ConstantDecl) (l l' : Layout) : Prop where
  declares : Declares (ds.map constantSymbol) l l'
  mask : l'.mask = l.mask
  libraries : l'.libraries = l.libraries
  data : l'.data = l.data
  dataSize : l'.dataSize = l.dataSize
  codeSize : l'.codeSize = l.codeSize

theorem gather_addConstant {l : Layout} {ds : List ConstantDecl}
    (h : Clean (gather addConstant l ds).2) : AddsConstants ds l (gather addConstant l ds).1 := by
  refine gather_induction (fun done l' => AddsConstants done l l')
    ⟨.refl l, rfl, rfl, rfl, rfl, rfl⟩ ?_ h
  rintro done d rest l' - hl' hclean
  refine ⟨?_, ?_, ?_, ?_, ?_, ?_⟩
  · rw [List.map_append]
    exact hl'.declares.trans (declare_clean hclean)
  all_goals simp [addConstant, hl'.mask, hl'.libraries, hl'.data, hl'.dataSize, hl'.codeSize]

/-- What placing data without an error does to a layout. -/
structure PlacesData (ds : List (DataDecl × Nat × List Cause)) (l l' : Layout) : Prop where
  declares : Declares ((placements l.dataSize ds).map PlacedDatum.symbol) l l'
  data : l'.data = (placements l.dataSize ds).reverse ++ l.data
  dataSize : l'.dataSize = l.dataSize + roomOf ds
  sound : ∀ x ∈ ds, ∀ c ∈ x.2.2, c.severity ≠ .error
  mask : l'.mask = l.mask
  libraries : l'.libraries = l.libraries
  codeSize : l'.codeSize = l.codeSize

theorem gather_addDatum {l : Layout} {ds : List (DataDecl × Nat × List Cause)}
    (h : Clean (gather addDatum l ds).2) : PlacesData ds l (gather addDatum l ds).1 := by
  refine gather_induction (fun done l' => PlacesData done l l')
    ⟨.refl l, rfl, rfl, by simp, rfl, rfl, rfl⟩ ?_ h
  rintro done ⟨d, size, causes⟩ rest l' - hl' hclean
  simp only [addDatum, clean_append] at hclean
  have hnew := declare_clean hclean.2
  have hlast : placements l.dataSize (done ++ [(d, size, causes)]) =
      placements l.dataSize done ++ [⟨d, l'.dataSize, size⟩] := by
    rw [placements_append, hl'.dataSize]
    rfl
  refine ⟨?_, ?_, ?_, ?_, ?_, ?_, ?_⟩
  · rw [hlast, List.map_append]
    have hboth := hl'.declares.trans hnew
    exact ⟨hboth.symbols, hboth.distinct, hboth.reach⟩
  · rw [hlast]
    simp [addDatum, hl'.data]
  · simp [addDatum, hl'.dataSize, roomOf, Nat.add_assoc]
  · intro x hx c hc
    rcases List.mem_append.mp hx with hx | hx
    · exact hl'.sound x hx c hc
    · rw [List.mem_singleton.mp hx] at hc
      have := hclean.1 ⟨c, some d.pos⟩ (List.mem_map.mpr ⟨c, hc, rfl⟩)
      simpa [Finding.isError] using this
  all_goals simp [addDatum, hl'.mask, hl'.libraries, hl'.codeSize]

/-- Places a line of code. -/
def addLine (l : Layout) : CodeLine → Layout × List Finding
  | .entry pos =>
    if l.entry.isSome then (l, [⟨.secondMain, some pos⟩])
    else ({ l with entry := some l.codeSize }, [])
  | .mark kind name pos => l.declare kind name l.codeSize pos
  | .word _ => ({ l with codeSize := l.codeSize + wordSize }, [])

theorem gather_addNode (l : Layout) (ns : List Node) :
    gather addNode l ns = gather addLine l (ns.map Node.line) := by
  induction ns generalizing l with
  | nil => rfl
  | cons n ns ih =>
    have hn : l.addNode n = l.addLine n.line := by cases n <;> rfl
    rw [List.map_cons, gather_cons, gather_cons, ih, hn]

theorem addRoutine_eq_gather (l : Layout) (r : Routine) :
    l.addRoutine r = gather addLine l r.lines := by
  have hopen : l.openRoutine r = l.addLine r.opening := by
    unfold openRoutine Routine.opening
    cases r.name <;> rfl
  simp only [Routine.lines, gather_cons, addRoutine, hopen, gather_addNode]

theorem gather_addRoutine (l : Layout) (rs : List Routine) :
    gather addRoutine l rs = gather addLine l (rs.flatMap Routine.lines) := by
  induction rs generalizing l with
  | nil => rfl
  | cons r rs ih =>
    rw [gather_cons, List.flatMap_cons, gather_append, addRoutine_eq_gather, ih]

/-- What placing code without an error does to a layout. -/
structure PlacesCode (ls : List CodeLine) (l l' : Layout) : Prop where
  declares : Declares (marks l.codeSize ls) l l'
  codeSize : l'.codeSize = l.codeSize + wordSize * (wordsOf ls).length
  mask : l'.mask = l.mask
  libraries : l'.libraries = l.libraries
  data : l'.data = l.data
  dataSize : l'.dataSize = l.dataSize

/-- One line of code without an error. -/
theorem addLine_clean {l : Layout} {line : CodeLine} (h : Clean (l.addLine line).2) :
    PlacesCode [line] l (l.addLine line).1 := by
  cases line with
  | entry pos =>
    simp only [addLine] at h ⊢
    split_ifs at h ⊢
    · simp [Finding.isError, Cause.severity] at h
    · exact ⟨⟨rfl, id, by simp [marks]⟩, rfl, rfl, rfl, rfl, rfl⟩
  | mark kind name pos =>
    exact ⟨declare_clean h, declare_codeSize .., declare_mask .., declare_libraries ..,
      declare_data .., declare_dataSize ..⟩
  | word i => exact ⟨⟨rfl, id, by simp [marks]⟩, rfl, rfl, rfl, rfl, rfl⟩

theorem gather_addLine {l : Layout} {ls : List CodeLine} (h : Clean (gather addLine l ls).2) :
    PlacesCode ls l (gather addLine l ls).1 := by
  refine gather_induction (fun done l' => PlacesCode done l l')
    ⟨.refl l, rfl, rfl, rfl, rfl, rfl⟩ ?_ h
  rintro done line rest l' - hl' hclean
  have hnew := addLine_clean hclean
  refine ⟨?_, ?_, hnew.mask.trans hl'.mask, hnew.libraries.trans hl'.libraries,
    hnew.data.trans hl'.data, hnew.dataSize.trans hl'.dataSize⟩
  · rw [marks_append, ← hl'.codeSize]
    exact hl'.declares.trans hnew.declares
  · rw [hnew.codeSize, hl'.codeSize, wordsOf_append, List.length_append, Nat.mul_add,
      Nat.add_assoc]

/-- The extensions and libraries come before everything else: nothing is declared yet. -/
structure Opens (ds : List LibraryDecl) (l : Layout) : Prop where
  mask : l.mask.Known
  libraries : l.libraries = ds.map fun d => (d.name, d.id)
  pins : ∀ d ∈ ds, ∀ id ∈ d.id, ContentId.isId id = true
  symbols : l.symbols = {}
  data : l.data = []
  dataSize : l.dataSize = 0
  codeSize : l.codeSize = 0

theorem gather_addExtension {asked : List (String × Option Position)} :
    Opens [] (gather addExtension {} asked).1 := by
  suffices key : ∀ l : Layout, Opens [] l → Opens [] (gather addExtension l asked).1 from
    key {} ⟨⟨1, by decide, rfl⟩, rfl, by simp, rfl, rfl, rfl, rfl⟩
  induction asked with
  | nil => exact fun l hl => hl
  | cons x xs ih =>
    intro l hl
    rw [gather_cons]
    refine ih (l.addExtension x).1 ?_
    rcases hn : Extension.named? x.1 with _ | e
    · simpa only [addExtension, Mask.addName, hn] using hl
    · simp only [addExtension, Mask.addName, hn]
      exact { hl with mask := hl.mask.union (Mask.known_bit e) }

theorem gather_addLibrary {l : Layout} {ds : List LibraryDecl} (hl : Opens [] l)
    (h : Clean (gather addLibrary l ds).2) : Opens ds (gather addLibrary l ds).1 := by
  refine gather_induction (fun done l' => Opens done l') hl ?_ h
  rintro done d rest l' - hl' hclean
  unfold addLibrary at hclean ⊢
  split_ifs at hclean ⊢
  · simp [Finding.isError, Cause.severity] at hclean
  · refine ⟨hl'.mask, by simp [hl'.libraries], ?_, hl'.symbols, hl'.data, hl'.dataSize,
      hl'.codeSize⟩
    intro d' hd' id hid
    rcases List.mem_append.mp hd' with hd' | hd'
    · exact hl'.pins d' hd' id hid
    · rw [List.mem_singleton.mp hd'] at hid
      simp only [idFindings, Option.mem_def.mp hid] at hclean
      by_contra hno
      simp [hno, Finding.isError, Cause.severity] at hclean

/-! ### The whole pass -/

/-- **The layout of an accepted program.** -/
structure Laid (p : Program) (sizes : List (Nat × List Cause)) (l : Layout) : Prop where
  symbols : l.symbols.toList = p.constants.map constantSymbol ++
    (placements 0 (p.data.zip sizes)).map PlacedDatum.symbol ++ marks 0 p.lines
  distinct : l.symbols.Distinct
  reach : ∀ s ∈ l.symbols.toList, s.kind ≠ .constant → ∀ v ∈ s.value, v ≤ maxOffset
  data : l.data.reverse = placements 0 (p.data.zip sizes)
  sound : ∀ x ∈ p.data.zip sizes, ∀ c ∈ x.2.2, c.severity ≠ .error
  dataSize : l.dataSize = roomOf (p.data.zip sizes)
  dataSize_le : l.dataSize ≤ maxSegment
  codeSize : l.codeSize = wordSize * p.instructions.length
  codeSize_le : l.codeSize ≤ maxSegment
  mask : l.mask.Known
  pins : ∀ x ∈ l.libraries, ∀ id ∈ x.2, ContentId.isId id = true

theorem ofProgram_laid {p : Program} {extra : List String} {sizes : List (Nat × List Cause)}
    (h : Clean (ofProgram p extra sizes).2) : Laid p sizes (ofProgram p extra sizes).1 := by
  simp only [ofProgram, clean_append] at h ⊢
  generalize hasked : (extra.map (fun name => (name, none)) ++
    p.extensions.map fun d => (d.name, some d.pos)) = asked at h ⊢
  obtain ⟨⟨⟨⟨⟨⟨-, hlibs⟩, hconsts⟩, hdata⟩, hdsize⟩, hcode⟩, hcsize⟩ := h
  have h1 := gather_addLibrary gather_addExtension hlibs
  generalize (gather addLibrary (gather addExtension {} asked).1 p.libraries).1 = l1 at *
  have h2 := gather_addConstant hconsts
  generalize (gather addConstant l1 p.constants).1 = l2 at *
  have h3 := gather_addDatum hdata
  generalize (gather addDatum l2 (p.data.zip sizes)).1 = l3 at *
  rw [gather_addRoutine, show p.routines.flatMap Routine.lines = p.lines from rfl] at hcode hcsize ⊢
  have h4 := gather_addLine hcode
  have hempty : l1.symbols.newestFirst = [] := by rw [h1.symbols]
  have hplaces : placements l2.dataSize (p.data.zip sizes) = placements 0 (p.data.zip sizes) := by
    rw [h2.dataSize, h1.dataSize]
  have hlines : marks l3.codeSize p.lines = marks 0 p.lines := by
    rw [h3.codeSize, h2.codeSize, h1.codeSize]
  have hall := (h2.declares.trans h3.declares).trans h4.declares
  rw [hplaces, hlines] at hall
  refine ⟨?_, ?_, ?_, ?_, h3.sound, ?_, ?_, ?_, ?_, ?_, ?_⟩
  · rw [SymbolTable.toList, hall.symbols, hempty]
    simp
  · exact hall.distinct (by rw [SymbolTable.Distinct, hempty]; exact .nil)
  · intro s hs
    rw [SymbolTable.toList, hall.symbols, hempty, List.append_nil, List.reverse_reverse] at hs
    exact hall.reach s hs
  · rw [h4.data, h3.data, h2.data, h1.data, hplaces]
    simp
  · rw [h4.dataSize, h3.dataSize, h2.dataSize, h1.dataSize, Nat.zero_add]
  · rw [h4.dataSize]
    by_contra hgt
    simp [dataFindings, Nat.lt_of_not_le hgt, Finding.isError, Cause.severity] at hdsize
  · rw [h4.codeSize, h3.codeSize, h2.codeSize, h1.codeSize, Nat.zero_add]
    exact congrArg (wordSize * List.length ·) (wordsOf_lines p)
  · by_contra hgt
    simp [codeFindings, Nat.lt_of_not_le hgt, Finding.isError, Cause.severity] at hcsize
  · rw [h4.mask, h3.mask, h2.mask]
    exact h1.mask
  · rw [h4.libraries, h3.libraries, h2.libraries, h1.libraries]
    intro x hx
    obtain ⟨d, hd, rfl⟩ := List.mem_map.mp hx
    exact h1.pins d hd

end Layout

end AluVM.Analysis
