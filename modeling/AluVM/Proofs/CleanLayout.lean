import AluVM.Proofs.Objects
import AluVM.Proofs.WellFormed

/-! # Programs with sound declarations

The first pass goes on after an error, and a later phase may rest on what an earlier one has found
faulty. So every phase is compared with its condition only where the phases before it found no
error: there the state is known exactly (`Declares`, `PlacesData`, `PlacesCode`), and one more step
finds no error exactly if its own condition holds (`clean_gather_iff`).

* `Layout.ofProgram_clean_iff`: the pass finds no error, phase by phase.
* `room_iff`: the data fit their segment, by their measures and by the bytes that they take. -/

namespace AluVM

/-- A union with the bit of an extension adds that extension and no other. -/
theorem Mask.Known.has_union_bit {m : Mask} (hm : m.Known) (e e' : Extension) :
    (m.union e.bit).has e' = true ↔ m.has e' = true ∨ e' = e := by
  have hall : ∀ n < 2 ^ 4, ∀ a ∈ Extension.all, ∀ b ∈ Extension.all,
      Mask.has (Mask.union (Int.ofNat n) a.bit) b = true ↔
        Mask.has (Int.ofNat n) b = true ∨ b = a := by
    decide +kernel
  have hmem : ∀ x : Extension, x ∈ Extension.all := by
    intro x
    cases x <;> decide
  obtain ⟨n, hn, rfl⟩ := hm
  exact hall n hn e (hmem e) e' (hmem e')

namespace Syntax

/-- Whether the line opens the main routine. -/
def CodeLine.main? : CodeLine → Option Unit
  | entry _ => some ()
  | _ => none

/-- One opening line for each main routine. -/
theorem Program.nodup_entries_iff (p : Program) :
    (p.lines.filterMap CodeLine.main?).Nodup ↔ (p.routines.filter (·.name.isNone)).length ≤ 1 := by
  have hlength : (p.lines.filterMap CodeLine.main?).length =
      (p.routines.filter (·.name.isNone)).length := by
    unfold Program.lines
    induction p.routines with
    | nil => rfl
    | cons r rs ih =>
      have hnodes : (r.body.map Node.line).filterMap CodeLine.main? = [] := by
        rw [List.filterMap_eq_nil_iff, List.forall_mem_map]
        intro n _
        cases n <;> rfl
      rw [List.flatMap_cons, List.filterMap_append, List.length_append, ih, Routine.lines,
        List.filterMap_cons]
      unfold Routine.opening
      rcases hname : r.name with _ | name <;> simp [hname, hnodes, CodeLine.main?, Nat.add_comm]
  have hunits : p.lines.filterMap CodeLine.main? =
      List.replicate (p.lines.filterMap CodeLine.main?).length () :=
    List.eq_replicate_of_mem fun _ _ => rfl
  rw [hunits, List.nodup_replicate, hlength]

end Syntax

namespace Analysis

open Syntax

/-- The offsets of the lines that open a main routine, the first line being at a given offset. -/
def entries : (offset : Nat) → List CodeLine → List Nat
  | _, [] => []
  | offset, .entry _ :: ls => offset :: entries offset ls
  | offset, .mark .. :: ls => entries offset ls
  | offset, .word _ :: ls => entries (offset + wordSize) ls

theorem length_entries (offset : Nat) (ls : List CodeLine) :
    (entries offset ls).length = (ls.filterMap CodeLine.main?).length := by
  induction ls generalizing offset with
  | nil => rfl
  | cons line ls ih =>
    cases line with
    | entry pos => exact congrArg (· + 1) (ih offset)
    | mark kind name pos => exact ih offset
    | word i => exact ih (offset + wordSize)

namespace Layout

/-! ### Names that are free -/

/-- No symbol of the layout is in this namespace. -/
def Vacant (l : Layout) (space : Namespace) : Prop :=
  ∀ s ∈ l.symbols.newestFirst, s.kind.space ≠ space

section Declares
variable {new : List Symbol} {l l' : Layout} {space : Namespace} (h : Declares new l l')
  (hl : l.Vacant space)
include h hl

theorem Declares.vacant (hnew : ∀ s ∈ new, s.kind.space ≠ space) : l'.Vacant space := by
  intro s hs
  rw [h.symbols] at hs
  rcases List.mem_append.mp hs with hs | hs
  · exact hnew s (List.mem_reverse.mp hs)
  · exact hl s hs

/-- In a namespace of its own, a name is free unless it is among the new ones. -/
theorem Declares.get?_eq_none_iff (hnew : ∀ s ∈ new, s.kind.space = space) (name : String) :
    l'.symbols.get? space name = none ↔ name ∉ new.map (·.name) := by
  rw [SymbolTable.get?_eq_none_iff, h.symbols]
  constructor
  · intro hfree hname
    obtain ⟨s, hs, rfl⟩ := List.mem_map.mp hname
    exact hfree s (by simp [hs]) ⟨hnew s hs, rfl⟩
  · rintro hname s hs ⟨hspace, rfl⟩
    rcases List.mem_append.mp hs with hs | hs
    · exact hname (List.mem_map.mpr ⟨s, List.mem_reverse.mp hs, rfl⟩)
    · exact hl s hs hspace

end Declares

theorem clean_declare_iff {l : Layout} {kind : SymbolKind} {name : String} {value : Int}
    {pos : Position} : Clean (l.declare kind name value pos).2 ↔
      l.symbols.get? kind.space name = none ∧ (kind ≠ .constant → value ≤ maxOffset) := by
  unfold declare
  rcases hfree : l.symbols.get? kind.space name with _ | earlier
  · simp only [true_and]
    split_ifs with hreach
    · simp only [Bool.and_eq_true, decide_eq_true_eq] at hreach
      simp only [clean_cons, Finding.isError, Cause.severity, decide_true, Bool.true_eq_false,
        false_and, false_iff, not_forall]
      exact ⟨hreach.1, by omega⟩
    · simp only [clean_nil, true_iff]
      intro hkind
      simpa [hkind] using hreach
  · simp [not_clean_redefinition]

/-! ### Extensions and libraries -/

theorem clean_addExtension {l : Layout} {x : String × Option Position} :
    Clean (l.addExtension x).2 ↔ ∃ e : Extension, e.Named x.1 := by
  simp only [addExtension, Mask.addName, ← Extension.named?_eq_some]
  rcases Extension.named? x.1 with _ | e <;> simp [Finding.isError, Cause.severity]

theorem clean_gather_addExtension {l : Layout} {asked : List (String × Option Position)} :
    Clean (gather addExtension l asked).2 ↔ ∀ x ∈ asked, ∃ e : Extension, e.Named x.1 := by
  rw [clean_gather_iff fun done x rest _ _ => clean_addExtension, forall_split_iff_forall_mem]

/-- The mask has the extensions that are asked for. -/
theorem has_gather_addExtension {e : Extension} : ∀ {asked : List (String × Option Position)}
    {l : Layout}, l.mask.Known → ((gather addExtension l asked).1.mask.has e = true ↔
      l.mask.has e = true ∨ ∃ x ∈ asked, e.Named x.1)
  | [], l, _ => by simp
  | x :: asked, l, hl => by
    rw [gather_cons]
    rcases hx : Extension.named? x.1 with _ | e'
    · have hstep : (l.addExtension x).1 = l := by simp [addExtension, Mask.addName, hx]
      have hno : ¬ e.Named x.1 := by simp [← Extension.named?_eq_some, hx]
      simp [hstep, has_gather_addExtension hl, hno]
    · have hstep : (l.addExtension x).1.mask = l.mask.union e'.bit := by
        simp [addExtension, Mask.addName, hx]
      have hnamed : e.Named x.1 ↔ e = e' := by
        rw [← Extension.named?_eq_some, hx, Option.some_inj, eq_comm]
      have hknown : (l.addExtension x).1.mask.Known := hstep ▸ hl.union (Mask.known_bit e')
      rw [has_gather_addExtension hknown, hstep, hl.has_union_bit]
      simp [hnamed, or_assoc]

theorem has_library {ds : List LibraryDecl} {l : Layout} (hl : Opens ds l) (name : String) :
    l.libraries.has name = true ↔ name ∈ ds.map (·.name) := by
  simp [LibraryTable.has, hl.libraries]

theorem clean_idFindings {d : LibraryDecl} :
    Clean (idFindings d) ↔ ∀ id ∈ d.id, IsId id := by
  unfold idFindings
  split
  · rename_i id hid
    simp only [hid, Option.mem_def, Option.some_inj, forall_eq', ← ContentId.isId_iff]
    split_ifs with h <;> simp [h, Finding.isError, Cause.severity]
  · rename_i hid
    simp [hid]

theorem clean_gather_addLibrary {l : Layout} (hl : Opens [] l) {ds : List LibraryDecl} :
    Clean (gather addLibrary l ds).2 ↔
      (ds.map (·.name)).Nodup ∧ ∀ d ∈ ds, ∀ id ∈ d.id, IsId id := by
  have hstep : ∀ done d rest, ds = done ++ d :: rest → Clean (gather addLibrary l done).2 →
      (Clean ((gather addLibrary l done).1.addLibrary d).2 ↔
        d.name ∉ done.map (·.name) ∧ ∀ id ∈ d.id, IsId id) := by
    intro done d rest _ hdone
    have hopens := gather_addLibrary hl hdone
    unfold addLibrary
    split_ifs with hhas
    · have hmem := (has_library hopens d.name).mp hhas
      simp [hmem, Finding.isError, Cause.severity]
    · have hmem := mt (has_library hopens d.name).mpr hhas
      rw [clean_idFindings, and_iff_right hmem]
  rw [clean_gather_iff hstep, nodup_map_iff, ← forall_split_iff_forall_mem]
  simp only [imp_and, forall_and]

/-! ### Constants and data -/

theorem clean_gather_addConstant {l : Layout} (hl : l.Vacant .const) {ds : List ConstantDecl} :
    Clean (gather addConstant l ds).2 ↔ (ds.map (·.name)).Nodup := by
  have hstep : ∀ done d rest, ds = done ++ d :: rest → Clean (gather addConstant l done).2 →
      (Clean ((gather addConstant l done).1.addConstant d).2 ↔ d.name ∉ done.map (·.name)) := by
    intro done d rest _ hdone
    have hfree := (gather_addConstant hdone).declares.get?_eq_none_iff hl
      (by simp [constantSymbol, SymbolKind.space]) d.name
    have hnames : (done.map constantSymbol).map (·.name) = done.map (·.name) := by
      simp [constantSymbol, Function.comp_def]
    rw [addConstant, clean_declare_iff, ← hnames, ← hfree]
    simp [SymbolKind.space]
  rw [clean_gather_iff hstep, nodup_map_iff]

theorem names_placements (offset : Nat) (ds : List (DataDecl × Nat × List Cause)) :
    ((placements offset ds).map PlacedDatum.symbol).map (·.name) = ds.map (·.1.name) := by
  have hdecls := congrArg (List.map (·.name)) (map_decl_placements offset ds)
  simpa [PlacedDatum.symbol, Function.comp_def] using hdecls

theorem clean_map_causes {causes : List Cause} {pos : Option Position} :
    Clean (causes.map fun c => ⟨c, pos⟩) ↔ ∀ c ∈ causes, c.severity ≠ .error := by
  simp [Clean, Finding.isError]

theorem clean_gather_addDatum {l : Layout} (hl : l.Vacant .data) (hsize : l.dataSize = 0)
    {ds : List (DataDecl × Nat × List Cause)} : Clean (gather addDatum l ds).2 ↔
      (∀ x ∈ ds, ∀ c ∈ x.2.2, c.severity ≠ .error) ∧ (ds.map (·.1.name)).Nodup ∧
      ∀ done x rest, ds = done ++ x :: rest → roomOf done ≤ maxOffset := by
  have hstep : ∀ done x rest, ds = done ++ x :: rest → Clean (gather addDatum l done).2 →
      (Clean ((gather addDatum l done).1.addDatum x).2 ↔
        (∀ c ∈ x.2.2, c.severity ≠ .error) ∧ x.1.name ∉ done.map (·.1.name) ∧
        roomOf done ≤ maxOffset) := by
    rintro done ⟨d, size, causes⟩ rest - hdone
    have hplaced := gather_addDatum hdone
    have hfree := hplaced.declares.get?_eq_none_iff hl
      (by simp [PlacedDatum.symbol, SymbolKind.space]) d.name
    have hroom : (gather addDatum l done).1.dataSize = roomOf done := by
      rw [hplaced.dataSize, hsize, Nat.zero_add]
    simp only [addDatum, clean_append, clean_map_causes, clean_declare_iff, hroom]
    rw [← names_placements l.dataSize, ← hfree]
    simp [SymbolKind.space]
  rw [clean_gather_iff hstep, nodup_map_iff, ← forall_split_iff_forall_mem]
  simp only [imp_and, forall_and]

/-! ### Code -/

/-- The first main routine counts, also where a second one is refused. -/
theorem entry_of_gather (l : Layout) (ls : List CodeLine) :
    (gather addLine l ls).1.entry = l.entry.or (entries l.codeSize ls).head? := by
  induction ls generalizing l with
  | nil => simp [entries]
  | cons line ls ih =>
    rw [gather_cons]
    refine (ih _).trans ?_
    cases line with
    | entry pos =>
      simp only [addLine]
      rcases hentry : l.entry with _ | e
      · simp [entries]
      · simp [hentry]
    | mark kind name pos => simp [addLine, entries]
    | word i => simp [addLine, entries]

theorem clean_gather_addLine {l : Layout} (hl : l.Vacant .code) (hsize : l.codeSize = 0)
    (hentry : l.entry = none) {ls : List CodeLine}
    (hls : ∀ kind name pos, CodeLine.mark kind name pos ∈ ls → kind.space = .code) :
    Clean (gather addLine l ls).2 ↔
      (ls.filterMap CodeLine.main?).Nodup ∧ (ls.filterMap CodeLine.name?).Nodup ∧
      ∀ done line rest, ls = done ++ line :: rest → ∀ name ∈ line.name?,
        wordSize * (wordsOf done).length ≤ maxOffset := by
  have hstep : ∀ done line rest, ls = done ++ line :: rest → Clean (gather addLine l done).2 →
      (Clean ((gather addLine l done).1.addLine line).2 ↔
        (∀ u ∈ line.main?, u ∉ done.filterMap CodeLine.main?) ∧
        (∀ name ∈ line.name?, name ∉ done.filterMap CodeLine.name?) ∧
        ∀ name ∈ line.name?, wordSize * (wordsOf done).length ≤ maxOffset) := by
    intro done line rest hsplit hdone
    have hplaced := gather_addLine hdone
    cases line with
    | entry pos =>
      have hbefore : (gather addLine l done).1.entry.isSome = true ↔
          () ∈ done.filterMap CodeLine.main? := by
        rw [entry_of_gather, hentry, Option.none_or, List.isSome_head?, ← List.length_pos_iff,
          length_entries, List.length_pos_iff_exists_mem, Unique.exists_iff]
      simp only [addLine]
      split_ifs with hsome
      · simp [← hbefore, hsome, CodeLine.main?, Finding.isError, Cause.severity]
      · simp [← hbefore, hsome, CodeLine.main?, CodeLine.name?]
    | mark kind name pos =>
      have hkind : kind.space = .code := hls kind name pos (by rw [hsplit]; simp)
      have hnew : ∀ s ∈ marks l.codeSize done, s.kind.space = .code := by
        intro s hs
        obtain ⟨before, pos', after, rfl, -⟩ := mem_marks hs
        exact hls s.kind s.name pos' (by rw [hsplit]; simp)
      have hfree := hplaced.declares.get?_eq_none_iff hl hnew name
      have hconst : kind ≠ .constant := by
        rintro rfl
        cases hkind
      have hoffset : (gather addLine l done).1.codeSize = wordSize * (wordsOf done).length := by
        rw [hplaced.codeSize, hsize, Nat.zero_add]
      rw [addLine, clean_declare_iff, hkind, hfree, map_name_marks, hoffset]
      simp only [CodeLine.main?, CodeLine.name?, Option.mem_def, Option.some_inj, forall_eq',
        reduceCtorEq, false_imp_iff, implies_true, true_and, ne_eq, hconst, not_false_iff,
        forall_const, Int.ofNat_le]
    | word i => simp [addLine, CodeLine.main?, CodeLine.name?]
  rw [clean_gather_iff hstep, nodup_filterMap_iff, nodup_filterMap_iff]
  simp only [imp_and, forall_and]

/-! ### The whole pass -/

theorem clean_dataFindings {l : Layout} : Clean l.dataFindings ↔ l.dataSize ≤ maxSegment := by
  unfold dataFindings
  split_ifs with h
  · simpa [Finding.isError, Cause.severity] using h
  · simpa using h

theorem clean_codeFindings {l : Layout} : Clean l.codeFindings ↔ l.codeSize ≤ maxSegment := by
  unfold codeFindings
  split_ifs with h
  · simpa [Finding.isError, Cause.severity] using h
  · simpa using h

section Frame
variable (asked : List (String × Option Position)) (libraries : List LibraryDecl)
  (constants : List ConstantDecl) (data : List (DataDecl × Nat × List Cause)) (ls : List CodeLine)

/-- Nothing before the code opens a routine or takes room in the code. -/
theorem start_of_code : let l := (gather addDatum (gather addConstant (gather addLibrary
    (gather addExtension {} asked).1 libraries).1 constants).1 data).1
    l.entry = none ∧ l.codeSize = 0 := by
  let f (l : Layout) : Option Nat × Nat := (l.entry, l.codeSize)
  have hextension : ∀ (l : Layout) x, f (l.addExtension x).1 = f l := by
    intro l x
    unfold addExtension
    split <;> rfl
  have hlibrary : ∀ (l : Layout) d, f (l.addLibrary d).1 = f l := by
    intro l d
    unfold addLibrary
    split_ifs <;> rfl
  have hconstant : ∀ (l : Layout) d, f (l.addConstant d).1 = f l := by simp [f, addConstant]
  have hdatum : ∀ (l : Layout) x, f (l.addDatum x).1 = f l := by simp [f, addDatum]
  have hframe := (((gather_frame f hdatum _ data).trans
    (gather_frame f hconstant _ constants)).trans
      (gather_frame f hlibrary _ libraries)).trans (gather_frame f hextension {} asked)
  exact Prod.mk.inj hframe

/-- Nothing after the extensions changes the mask. -/
theorem mask_after_extensions (l : Layout) : (gather addLine (gather addDatum (gather addConstant
    (gather addLibrary l libraries).1 constants).1 data).1 ls).1.mask = l.mask := by
  have hlibrary : ∀ (l : Layout) d, (l.addLibrary d).1.mask = l.mask := by
    intro l d
    unfold addLibrary
    split_ifs <;> rfl
  have hline : ∀ (l : Layout) line, (l.addLine line).1.mask = l.mask := by
    intro l line
    cases line with
    | entry pos =>
      simp only [addLine]
      split_ifs <;> rfl
    | mark kind name pos => simp [addLine]
    | word i => rfl
  rw [gather_frame Layout.mask hline, gather_frame Layout.mask (by simp [addDatum]),
    gather_frame Layout.mask (by simp [addConstant]), gather_frame Layout.mask hlibrary]

end Frame

/-- **The first pass finds no error** exactly if the declarations of the program are sound. -/
theorem ofProgram_clean_iff {p : Program} {extra : List String} {sizes : List (Nat × List Cause)} :
    Clean (ofProgram p extra sizes).2 ↔
      (∀ name ∈ p.asked extra, ∃ e : Extension, e.Named name) ∧
      ((p.libraries.map (·.name)).Nodup ∧ ∀ d ∈ p.libraries, ∀ id ∈ d.id, IsId id) ∧
      (p.constants.map (·.name)).Nodup ∧
      ((∀ x ∈ p.data.zip sizes, ∀ c ∈ x.2.2, c.severity ≠ .error) ∧
        ((p.data.zip sizes).map (·.1.name)).Nodup ∧
        ∀ done x rest, p.data.zip sizes = done ++ x :: rest → roomOf done ≤ maxOffset) ∧
      roomOf (p.data.zip sizes) ≤ maxSegment ∧
      ((p.routines.filter (·.name.isNone)).length ≤ 1 ∧ p.codeNames.Nodup ∧
        ∀ done line rest, p.lines = done ++ line :: rest → ∀ name ∈ line.name?,
          wordSize * (wordsOf done).length ≤ maxOffset) ∧
      wordSize * p.instructions.length ≤ maxSegment := by
  let asked : List (String × Option Position) := extra.map (fun name => (name, none)) ++
    p.extensions.map fun d => (d.name, some d.pos)
  let l0 := (gather addExtension {} asked).1
  let l1 := (gather addLibrary l0 p.libraries).1
  let l2 := (gather addConstant l1 p.constants).1
  let l3 := (gather addDatum l2 (p.data.zip sizes)).1
  let l4 := (gather addLine l3 p.lines).1
  have hphases : Clean (ofProgram p extra sizes).2 ↔ Clean (gather addExtension {} asked).2 ∧
      Clean (gather addLibrary l0 p.libraries).2 ∧ Clean (gather addConstant l1 p.constants).2 ∧
      Clean (gather addDatum l2 (p.data.zip sizes)).2 ∧ Clean l3.dataFindings ∧
      Clean (gather addLine l3 p.lines).2 ∧ Clean l4.codeFindings := by
    simp only [ofProgram, clean_append, and_assoc, gather_addRoutine]
    rfl
  have hasked : asked.map Prod.fst = p.asked extra := by
    simp [asked, Program.asked, Function.comp_def]
  rw [hphases, clean_gather_addExtension, ← hasked, List.forall_mem_map]
  refine and_congr_right fun _ => ?_
  have h0 : Opens [] l0 := gather_addExtension
  have hlibraries : Clean (gather addLibrary l0 p.libraries).2 ↔ _ := clean_gather_addLibrary h0
  rw [hlibraries]
  refine and_congr_right fun hclean => ?_
  have h1 : Opens p.libraries l1 := gather_addLibrary h0 (hlibraries.mpr hclean)
  have hvacant : ∀ space, l1.Vacant space := fun space s hs => by simp [h1.symbols] at hs
  have hconstants : Clean (gather addConstant l1 p.constants).2 ↔ _ :=
    clean_gather_addConstant (hvacant _)
  rw [hconstants]
  refine and_congr_right fun hclean => ?_
  have h2 : AddsConstants p.constants l1 l2 := gather_addConstant (hconstants.mpr hclean)
  have hdataSize : l2.dataSize = 0 := h2.dataSize.trans h1.dataSize
  have hdata : Clean (gather addDatum l2 (p.data.zip sizes)).2 ↔ _ := clean_gather_addDatum
    (h2.declares.vacant (hvacant _) (by simp [constantSymbol, SymbolKind.space])) hdataSize
  rw [hdata]
  refine and_congr_right fun hclean => ?_
  have h3 : PlacesData (p.data.zip sizes) l2 l3 := gather_addDatum (hdata.mpr hclean)
  have hroom : l3.dataSize = roomOf (p.data.zip sizes) := by
    rw [h3.dataSize, hdataSize, Nat.zero_add]
  rw [clean_dataFindings, hroom]
  refine and_congr_right fun _ => ?_
  have hentry : l3.entry = none := (start_of_code ..).1
  have hcodeVacant : l3.Vacant .code := by
    refine h3.declares.vacant (h2.declares.vacant (hvacant _) ?_) ?_
    · simp [constantSymbol, SymbolKind.space]
    · simp [PlacedDatum.symbol, SymbolKind.space]
  have hcodeSize : l3.codeSize = 0 := by rw [h3.codeSize, h2.codeSize, h1.codeSize]
  have hcode : Clean (gather addLine l3 p.lines).2 ↔ _ :=
    clean_gather_addLine hcodeVacant hcodeSize hentry fun kind name pos hmark => by
      rcases mark_of_mem_lines hmark with ⟨rfl, -⟩ | ⟨rfl, -⟩ <;> rfl
  rw [← Program.nodup_entries_iff, hcode]
  refine and_congr_right fun hclean => ?_
  have h4 : PlacesCode p.lines l3 l4 := gather_addLine (hcode.mpr hclean)
  rw [clean_codeFindings, h4.codeSize, hcodeSize, Nat.zero_add, wordsOf_lines]

end Layout

/-! ### Data one behind the other -/

theorem Gauged.spec {d : DataDecl} (h : Gauged d) : datumSize d = .ok (measured d) ∧
    ∀ n, d.Takes n ↔ datumRoom d = n ∧ ∀ c ∈ (measured d).2, c.severity ≠ .error := by
  obtain ⟨size, causes, hsize, htakes⟩ := h
  have hmeasured : measured d = (size, causes) := by
    simp [measured, hsize, Except.toOption]
  refine ⟨by rw [hmeasured, hsize], fun n => ?_⟩
  rw [htakes, datumRoom, hmeasured]
  refine and_congr_right fun _ => ⟨by rintro rfl; simp, fun hsound => ?_⟩
  refine List.eq_nil_iff_forall_not_mem.mpr fun c hc => ?_
  exact hsound c hc (datumSize_error hsize c hc)

theorem forall₂_takes_iff {ds : List DataDecl} (hds : ∀ d ∈ ds, Gauged d) {sizes : List Nat} :
    List.Forall₂ DataDecl.Takes ds sizes ↔ ds.map datumRoom = sizes ∧
      ∀ d ∈ ds, ∀ c ∈ (measured d).2, c.severity ≠ .error := by
  induction ds generalizing sizes with
  | nil => simp [eq_comm]
  | cons d ds ih =>
    have hd := (hds d List.mem_cons_self).spec.2
    have hrest : ∀ ns, List.Forall₂ DataDecl.Takes ds ns ↔ _ := fun _ =>
      ih fun d' hd' => hds d' (List.mem_cons_of_mem d hd')
    rw [List.forall₂_cons_left_iff, List.forall_mem_cons, List.map_cons]
    constructor
    · rintro ⟨n, ns, hn, hns, rfl⟩
      obtain ⟨rfl, hsound⟩ := (hd n).mp hn
      obtain ⟨rfl, hsounds⟩ := (hrest ns).mp hns
      exact ⟨rfl, hsound, hsounds⟩
    · rintro ⟨rfl, hsound, hsounds⟩
      exact ⟨_, _, (hd _).mpr ⟨rfl, hsound⟩, (hrest _).mpr ⟨rfl, hsounds⟩, rfl⟩

/-- Sums over what comes before an element, by its index and by its place. -/
theorem sum_take_le_iff {α : Type} {f : α → Nat} {xs : List α} {bound : Nat} :
    (∀ k < (xs.map f).length, ((xs.map f).take k).sum ≤ bound) ↔
      ∀ done x rest, xs = done ++ x :: rest → (done.map f).sum ≤ bound := by
  constructor
  · rintro h done x rest rfl
    simpa using h done.length (by simp)
  · intro h k hk
    rw [List.length_map] at hk
    rw [← List.map_take]
    exact h (xs.take k) xs[k] (xs.drop (k + 1)) (by simp)

/-- The room of the data, by their measures and by what they take. -/
theorem room_iff {p : Program} (hp : ∀ d ∈ p.data, Gauged d) :
    (∃ sizes, List.Forall₂ DataDecl.Takes p.data sizes ∧
      (∀ k < sizes.length, (sizes.take k).sum ≤ maxOffset) ∧ sizes.sum ≤ maxSegment) ↔
    (∀ x ∈ sized p, ∀ c ∈ x.2.2, c.severity ≠ .error) ∧
      (∀ done x rest, sized p = done ++ x :: rest → roomOf done ≤ maxOffset) ∧
      roomOf (sized p) ≤ maxSegment := by
  have hsizes : (sized p).map (·.2.1) = p.data.map datumRoom := by
    simp [sized, datumRoom, Function.comp_def]
  have hsound : (∀ x ∈ sized p, ∀ c ∈ x.2.2, c.severity ≠ .error) ↔
      ∀ d ∈ p.data, ∀ c ∈ (measured d).2, c.severity ≠ .error := by
    simp [sized]
  simp only [forall₂_takes_iff hp, and_assoc, exists_eq_left', ← hsizes, sum_take_le_iff, hsound,
    roomOf]

end Analysis

end AluVM
