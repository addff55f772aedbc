import AluVM.Proofs.Demands
import AluVM.Proofs.Renaming
import Mathlib.SetTheory.Cardinal.Arithmetic

/-! # Renaming and linking

No name of a routine, label, datum or constant is in the bytes of a library. The object of a renamed
program is the renamed object (`Analysis.encode_renamed`): its symbols and the targets of its
relocations have new names, and all else is as before. A relocation finds its symbol under the new
name, so that both objects link to the same code, or neither links (`linkObject_renamed`).

Up to here different names stay different whatever they are. A renaming that keeps the names of one
program apart can be extended to such a renaming (`Renaming.exists_injective`), which gives the
theorem for programs of sources, `Analysis.linked_of_renamed`. -/

namespace AluVM

open Syntax (Operand Instruction Node Routine ConstantDecl DataDecl Item Program CodeLine parse)

open Steps (Both)

variable {names : Syntax.CharacterNames}

/-! ### Renamed objects -/

/-- The namespace of the targets of relocations of a kind. -/
def RelocationKind.space : RelocationKind → Namespace
  | localOffset => .code
  | externalCall => .foreign
  | dataAddress => .data

namespace Renaming

section Objects
variable (ρ : Renaming)

/-- The renamed symbol of an object. -/
def objectSymbol (s : ObjectSymbol) : ObjectSymbol := { s with name := ρ.name s.kind.space s.name }

/-- The relocation with its target renamed. -/
def relocation (r : Relocation) : Relocation := { r with target := ρ.name r.kind.space r.target }

/-- The renamed object. -/
def object (o : Object) : Object :=
  { o with
    exports := o.exports.map ρ.objectSymbol
    symbols := o.symbols.map ρ.objectSymbol
    relocations := o.relocations.map ρ.relocation }

/-- The library with its exports renamed. -/
def library (l : Library) : Library := { l with exports := l.exports.map ρ.objectSymbol }

end Objects

variable {ρ : Renaming}

/-! ### Encoding -/

theorem Meaning.relocationKind? {x x' : Operand} (h : ρ.Meaning x x') (slot : Slot) :
    Analysis.relocationKind? slot x' = (Analysis.relocationKind? slot x).map fun (kind, target) =>
      (kind, ρ.name kind.space target) := by
  cases h <;> cases slot <;> rfl

/-- An operand has the same field after renaming. -/
theorem Placed.field {q q' : Analysis.Placed} {file : Option String} {slot : Slot} {x x' : Operand}
    {bytes : Bytes} (h : ρ.Meaning x x') (hfield : q.field file slot x = .ok bytes) :
    q'.field file slot x' = .ok bytes := by
  have hkind := h.relocationKind? slot
  cases h with
  | immediate value text text' width =>
    cases slot with
    | immediate bits signed =>
      simp only [Analysis.Placed.field] at hfield ⊢
      split_ifs at hfield ⊢
      exact hfield
    | _ => cases hfield
  | register set index =>
    cases slot with
    | register banks sets => exact hfield
    | _ => cases hfield
  | _ =>
    cases slot <;> first | exact hfield | cases hfield

theorem relocationsAt_meanings {slots : List Slot} {xs xs' : List Operand}
    (h : List.Forall₂ ρ.Meaning xs xs') (offset : Int) :
    Analysis.relocationsAt offset (slots.zip xs') =
      (Analysis.relocationsAt offset (slots.zip xs)).map ρ.relocation := by
  induction h generalizing slots offset with
  | nil => simp [Analysis.relocationsAt]
  | @cons x x' xs xs' hx _ ih =>
    cases slots with
    | nil => rfl
    | cons slot slots =>
      simp only [List.zip_cons_cons, Analysis.relocationsAt, ih, List.map_append,
        hx.relocationKind? slot]
      rcases Analysis.relocationKind? slot x with _ | ⟨kind, target⟩ <;> rfl

theorem fields_meanings {q q' : Analysis.Placed} {file : Option String} {slots : List Slot}
    {xs xs' : List Operand} (h : List.Forall₂ ρ.Meaning xs xs') {bytes : Bytes}
    (hfields : q.fields file (slots.zip xs) = .ok bytes) :
    q'.fields file (slots.zip xs') = .ok bytes := by
  obtain ⟨blocks, hblocks, rfl⟩ := Steps.map_eq_ok.mp hfields
  refine Steps.map_eq_ok.mpr ⟨blocks, Steps.mapM_eq_ok.mpr ?_, rfl⟩
  rw [Steps.mapM_eq_ok] at hblocks
  clear hfields
  induction h generalizing slots blocks with
  | nil => simpa using hblocks
  | cons hx _ ih =>
    cases slots with
    | nil => simpa using hblocks
    | cons slot slots =>
      cases hblocks with
      | cons hfirst hothers => exact .cons (Placed.field hx hfirst) (ih _ hothers)

/-- **The word of an instruction is the same**, and its relocations are renamed. -/
theorem Placed.encode {q q' : Analysis.Placed} (h : ρ.Placed q q') {file : Option String}
    {word : Bytes} {relocations : List Relocation}
    (hencode : q.encode file = .ok (word, relocations)) :
    q'.encode file = .ok (word, relocations.map ρ.relocation) := by
  have hcount : q'.operands.length = q.operands.length := h.operands.length_eq.symm
  unfold Analysis.Placed.encode at hencode ⊢
  rw [hcount, h.spec, h.offset]
  split_ifs at hencode ⊢ with hlength
  obtain ⟨fields, hfields, hencode⟩ := Steps.bind_eq_ok.mp hencode
  cases hencode
  refine Steps.bind_eq_ok.mpr ⟨fields, fields_meanings h.operands hfields, ?_⟩
  rw [relocationsAt_meanings h.operands]
  rfl

end Renaming

namespace Analysis
variable {ρ : Renaming}

/-- The bytes of data do not depend on their name. -/
theorem encodeDatum_renamed {d : DataDecl} {reserved : Int} {file : Option String} {bytes : Bytes}
    (h : encodeDatum d reserved file = .ok bytes) :
    encodeDatum (ρ.dataDecl d) reserved file = .ok bytes := by
  have hbytes : ∀ {raw}, datumBytes d file = .ok raw →
      datumBytes (ρ.dataDecl d) file = .ok raw := by
    intro raw hraw
    unfold datumBytes at hraw ⊢
    have htype : (ρ.dataDecl d).type = d.type := rfl
    have hvalues : (ρ.dataDecl d).values = d.values := rfl
    rw [htype, hvalues]
    split_ifs at hraw ⊢ with hstring hblob
    · exact hraw
    · obtain ⟨blobs, hblobs, hraw⟩ := Steps.bind_eq_ok.mp hraw
      refine Steps.bind_eq_ok.mpr ⟨blobs, hblobs, ?_⟩
      generalize blobs.mapM id = joined at hraw ⊢
      cases joined with
      | none => cases hraw
      | some strings => exact hraw
    · generalize numericType? d.type = type at hraw ⊢
      rcases type with _ | ⟨width, signed⟩
      · exact hraw
      · obtain ⟨blocks, hblocks, rfl⟩ := Steps.map_eq_ok.mp hraw
        refine Steps.map_eq_ok.mpr ⟨blocks, ?_, rfl⟩
        rw [Steps.mapM_eq_ok] at hblocks ⊢
        refine hblocks.imp fun value block hvalue => ?_
        cases value with
        | immediate i =>
          simp only [numberBytes] at hvalue ⊢
          split_ifs at hvalue ⊢
          exact hvalue
        | _ => cases hvalue
  obtain ⟨raw, hraw, h⟩ := Steps.bind_eq_ok.mp h
  refine Steps.bind_eq_ok.mpr ⟨raw, hbytes hraw, ?_⟩
  split_ifs at h ⊢
  exact h

theorem ofKinds_renamed (t : SymbolTable) (kinds : List SymbolKind) :
    (ρ.table t).ofKinds kinds = (t.ofKinds kinds).map ρ.symbol := by
  have htoList : (ρ.table t).toList = t.toList.map ρ.symbol := by
    rw [SymbolTable.toList, SymbolTable.toList, Renaming.table, List.map_reverse]
  rw [SymbolTable.ofKinds, SymbolTable.ofKinds, htoList, List.filter_map]
  rfl

theorem objectSymbols_renamed (symbols : List Symbol) :
    objectSymbols (symbols.map ρ.symbol) = (objectSymbols symbols).map ρ.objectSymbol := by
  rw [objectSymbols, objectSymbols, List.map_map, List.map_map]
  rfl

theorem sortRelocations_renamed (rs : List Relocation) :
    sortRelocations (rs.map ρ.relocation) = (sortRelocations rs).map ρ.relocation :=
  (List.map_mergeSort (f := ρ.relocation) fun _ _ _ _ => rfl).symm

theorem ofParts_renamed {a a' : Analysis} (h : ρ.Analysis a a') (name : Option String) (room : Nat)
    (words : List (Int × Bytes × List Relocation)) (blocks : List Bytes) :
    a'.ofParts name room (words.map fun w => (w.1, w.2.1, w.2.2.map ρ.relocation)) blocks =
      ρ.object (a.ofParts name room words blocks) := by
  have himports : ((a.symbols.ofKinds [.importedExternal]).map ρ.symbol).map
      (fun s => ({ name := s.name } : Import)) =
      (a.symbols.ofKinds [.importedExternal]).map fun s => { name := s.name } := by
    rw [List.map_map]
    refine List.map_congr_left fun s hs => ?_
    have hkind : s.kind = .importedExternal := by simpa using (List.mem_filter.mp hs).2
    simp only [Function.comp_apply, Renaming.symbol, hkind]
    rfl
  simp only [ofParts, Renaming.object, h.symbols, h.mask, h.libraries, h.entry, h.file,
    ofKinds_renamed, objectSymbols_renamed, ← sortRelocations_renamed, himports, List.map_map,
    List.flatMap_map, List.map_flatMap]
  -- the words are the same, each with the relocations that were renamed
  rfl

/-- **The object of the renamed program** is the renamed object. -/
theorem encode_renamed {a a' : Analysis} (h : ρ.Analysis a a') {name : Option String} {o : Object}
    (hencode : a.encode name = .ok o) : a'.encode name = .ok (ρ.object o) := by
  obtain ⟨hok, room, words, blocks, hroom, hwords, hsize, hblocks, rfl⟩ := encode_eq_ok.mp hencode
  have hok' : a'.ok = true := by
    rw [ok_iff_clean] at hok ⊢
    rwa [h.findings]
  have hwords' : a'.code.mapM (Placed.spelled a'.file) =
      .ok (words.map fun w => (w.1, w.2.1, w.2.2.map ρ.relocation)) := by
    rw [Steps.mapM_eq_ok] at hwords ⊢
    rw [List.forall₂_map_right_iff, h.file]
    refine (Steps.forall₂_comp.mpr ⟨a.code, h.code.flip, hwords⟩).imp ?_
    rintro q' w ⟨q, hq, hw⟩
    obtain ⟨⟨word, relocations⟩, hencode, rfl⟩ := Steps.map_eq_ok.mp hw
    refine Steps.map_eq_ok.mpr ⟨_, hq.encode hencode, ?_⟩
    rw [hq.offset]
  have hblocks' : a'.data.mapM (fun d => encodeDatum d.decl d.size a'.file) = .ok blocks := by
    rw [Steps.mapM_eq_ok] at hblocks ⊢
    rw [h.data, List.forall₂_map_left_iff, h.file]
    exact hblocks.imp fun d block hblock => encodeDatum_renamed hblock
  refine encode_eq_ok.mpr ⟨hok', room, _, blocks, ?_, hwords', ?_, hblocks', ?_⟩
  · rw [h.codeSize]
    exact hroom
  · rw [h.codeSize, ← h.code.length_eq]
    exact hsize
  · exact ofParts_renamed h name room words blocks

end Analysis

/-! ### Linking -/

namespace Renaming
variable {ρ : Renaming}

/-- A field finds its symbol under the new name. -/
theorem demand_object (hρ : ρ.Injective) (o : Object) (r : Relocation) :
    (ρ.object o).demand (ρ.relocation r) = o.demand r := by
  have hsymbols : (ρ.object o).exports ++ (ρ.object o).symbols =
      (o.exports ++ o.symbols).map ρ.objectSymbol := List.map_append.symm
  have hspace : ∀ kind ∈ r.kind.symbolKinds, kind.space = r.kind.space := by
    cases r.kind <;> decide
  have hfound : (fun x : ObjectSymbol => decide (x.name = (ρ.relocation r).target) &&
      decide (x.kind ∈ r.kind.symbolKinds)) ∘ ρ.objectSymbol =
      fun x => decide (x.name = r.target) && decide (x.kind ∈ r.kind.symbolKinds) := by
    funext x
    by_cases hkind : x.kind ∈ r.kind.symbolKinds
    · simp [objectSymbol, relocation, hspace x.kind hkind, (hρ r.kind.space).eq_iff]
    · simp [objectSymbol, hkind]
  rw [Object.demand, Object.demand, hsymbols]
  ext1
  · rfl
  · rfl
  · show ((List.map ρ.objectSymbol _).find? _).map _ = _
    rw [List.find?_map, Option.map_map]
    exact congrArg (Option.map _) (congrArg (List.find? · _) hfound)
  · show (if r.kind = .externalCall then some (ρ.name r.kind.space r.target) else none) = _
    cases hkind : r.kind <;> simp [Relocation.demand, hkind, RelocationKind.space, name]

/-- The linker cannot tell the renamed object from the object. -/
theorem alike_object (hρ : ρ.Injective) (o : Object) : Alike o (ρ.object o) where
  name := rfl
  mask := rfl
  code := rfl
  data := rfl
  entry := rfl
  pins _ := rfl
  demands := by
    show (o.relocations.map ρ.relocation).map (ρ.object o).demand = _
    rw [List.map_map]
    exact List.map_congr_left fun r _ => demand_object hρ o r

/-- **The renamed object links as the object does**: to a library that differs in the names of its
exports, or not at all. -/
theorem linkObject_renamed (hρ : ρ.Injective) (o : Object) (env : Environment)
    (s : ContentId.Strategy) :
    Both (fun l l' => l' = ρ.library l) (linkObject o env s) (linkObject (ρ.object o) env s) := by
  refine (linkObject_alike (alike_object hρ o) env s).imp fun l l' hl => ?_
  rw [hl.2, library, hl.1]
  rfl

/-! ### Renaming the names of one program -/

/-- Different names of the program get different names, among its routines and labels, its data and
its constants. -/
structure InjOn (ρ : Renaming) (p : Program) : Prop where
  code : Set.InjOn ρ.code {name | name ∈ p.codeNames}
  data : Set.InjOn ρ.data {name | name ∈ p.data.map (·.name)}
  const : Set.InjOn ρ.const {name | name ∈ p.constants.map (·.name)}

/-- The renamings do the same to the names of the program. -/
structure Agree (σ ρ : Renaming) (p : Program) : Prop where
  code : ∀ name ∈ p.codeNames, σ.code name = ρ.code name
  data : ∀ d ∈ p.data, σ.data d.name = ρ.data d.name
  const : ∀ d ∈ p.constants, σ.const d.name = ρ.const d.name

/-- A map that keeps finitely many names apart can be changed elsewhere to keep all names apart. -/
theorem exists_injective_of_injOn {f : String → String} {names : List String}
    (h : Set.InjOn f {name | name ∈ names}) :
    ∃ g : String → String, Function.Injective g ∧ ∀ name ∈ names, g name = f name := by
  have hfinite : {name | name ∈ names}.Finite := List.finite_toSet names
  have hlt : Cardinal.mk {name | name ∈ names} < Cardinal.mk String :=
    hfinite.lt_aleph0.trans_le (Cardinal.infinite_iff.mp inferInstance)
  obtain ⟨g, hg⟩ := Cardinal.extend_function_of_lt ⟨fun x => f x, h.injective⟩ hlt
    ⟨Equiv.refl String⟩
  exact ⟨g, g.injective, fun name hname => hg ⟨name, hname⟩⟩

theorem exists_injective {p : Program} (h : ρ.InjOn p) : ∃ σ : Renaming, σ.Injective ∧
    σ.Agree ρ p := by
  obtain ⟨code, hcode, hcode'⟩ := exists_injective_of_injOn h.code
  obtain ⟨data, hdata, hdata'⟩ := exists_injective_of_injOn h.data
  obtain ⟨const, hconst, hconst'⟩ := exists_injective_of_injOn h.const
  refine ⟨⟨code, data, const⟩, ?_, hcode', ?_, ?_⟩
  · intro space
    cases space with
    | code => exact hcode
    | data => exact hdata
    | const => exact hconst
    | foreign => exact Function.injective_id
  · exact fun d hd => hdata' d.name (List.mem_map.mpr ⟨d, hd, rfl⟩)
  · exact fun d hd => hconst' d.name (List.mem_map.mpr ⟨d, hd, rfl⟩)

section Agree
variable {σ : Renaming} {p : Program} (h : σ.Agree ρ p)
include h

theorem Agree.operands {xs : List Operand} {slots : List Slot}
    (hfits : List.Forall₂ (fun x slot => p.Fits slot x) xs slots) :
    σ.operands slots xs = ρ.operands slots xs := by
  induction hfits with
  | nil => rfl
  | @cons x slot xs slots hx _ ih =>
    have hoperand : σ.operand slot x = ρ.operand slot x := by
      cases hx with
      | constant declared _ => exact congrArg Operand.symbol (h.const _ declared)
      | label declared => exact congrArg Operand.symbol (h.code _ declared)
      | datum declared => exact congrArg Operand.symbol (h.data _ declared)
      | _ => rfl
    rw [Renaming.operands, Renaming.operands, hoperand, ih]

theorem Agree.instruction {extra : List String} {i : Instruction} (hi : i.WellFormed p extra) :
    σ.instruction i = ρ.instruction i := by
  obtain ⟨spec, hspec, hmnemonic, -, hfits, -⟩ := hi
  have hnamed : Spec.named? i.mnemonic = some spec := Spec.named?_eq_some.mpr ⟨hspec, hmnemonic⟩
  rw [Renaming.instruction, Renaming.instruction, hnamed]
  simp only [h.operands hfits]

theorem Agree.node {extra : List String} (hwf : p.WellFormed extra) {r : Routine}
    (hr : r ∈ p.routines) {n : Node} (hn : n ∈ r.body) : σ.node n = ρ.node n := by
  have hline : n.line ∈ p.lines := by
    refine List.mem_flatMap.mpr ⟨r, hr, List.mem_cons_of_mem _ ?_⟩
    exact List.mem_map.mpr ⟨n, hn, rfl⟩
  cases n with
  | label name pos =>
    have hname : name ∈ p.codeNames := List.mem_filterMap.mpr ⟨_, hline, rfl⟩
    rw [Renaming.node, Renaming.node, h.code name hname]
  | instruction i =>
    have hi : i ∈ p.instructions := by
      rw [← Syntax.wordsOf_lines]
      exact List.mem_filterMap.mpr ⟨_, hline, rfl⟩
    rw [Renaming.node, Renaming.node, h.instruction (hwf.instructions i hi)]

theorem Agree.routine {extra : List String} (hwf : p.WellFormed extra) {r : Routine}
    (hr : r ∈ p.routines) : σ.routine r = ρ.routine r := by
  have hname : r.name.map σ.code = r.name.map ρ.code := by
    rcases hname : r.name with _ | name
    · rfl
    · have hopening : CodeLine.mark .exportedLabel name r.pos ∈ p.lines := by
        refine List.mem_flatMap.mpr ⟨r, hr, List.mem_cons.mpr (Or.inl ?_)⟩
        rw [Routine.opening, hname]
      exact congrArg some (h.code name (List.mem_filterMap.mpr ⟨_, hopening, rfl⟩))
  have hbody : r.body.map σ.node = r.body.map ρ.node :=
    List.map_congr_left fun n hn => h.node hwf hr hn
  rw [Renaming.routine, Renaming.routine, hname, hbody]

/-- The renamed program depends on what happens to its own names. -/
theorem Agree.program {extra : List String} (hwf : p.WellFormed extra) :
    σ.program p = ρ.program p := by
  have hitems : p.items.map σ.item = p.items.map ρ.item := by
    refine List.map_congr_left fun item hitem => ?_
    cases item with
    | constant d =>
      have hd : d ∈ p.constants := List.mem_filterMap.mpr ⟨_, hitem, rfl⟩
      simp only [item, constantDecl, h.const d hd]
    | data d =>
      have hd : d ∈ p.data := List.mem_filterMap.mpr ⟨_, hitem, rfl⟩
      simp only [item, dataDecl, h.data d hd]
    | routine r =>
      have hr : r ∈ p.routines := List.mem_filterMap.mpr ⟨_, hitem, rfl⟩
      simp only [item, h.routine hwf hr]
    | _ => rfl
  rw [Renaming.program, Renaming.program, hitems]

/-- The exports of a linked object are renamed alike. -/
theorem Agree.library {a : AluVM.Analysis} {o : Object} {env : Environment} {s : ContentId.Strategy}
    {l : Library} (hassembled : AluVM.Analysis.Assembled p a o)
    (hlinked : linkObject o env s = .ok l) : σ.library l = ρ.library l := by
  obtain ⟨-, j, hlists, hlibrary⟩ := exists_lists hlinked
  have hexports : l.exports = o.exports := by
    rw [(library_eq_ok hlibrary).2.2.2.1, hlists.object]
  have hsame : l.exports.map σ.objectSymbol = l.exports.map ρ.objectSymbol := by
    refine List.map_congr_left fun x hx => ?_
    rw [hexports] at hx
    obtain ⟨symbol, -, hkind, rfl⟩ := hassembled.encoded.mem_exports.mp hx
    obtain ⟨before, pos, after, hlines, -⟩ :=
      hassembled.exists_mark (List.mem_append_left _ hx) (by rw [hkind]; rfl)
    have hname : symbol.name ∈ p.codeNames :=
      List.mem_filterMap.mpr ⟨.mark symbol.kind symbol.name pos, by simp [hlines], rfl⟩
    simp only [objectSymbol, hkind]
    exact congrArg (ObjectSymbol.mk · _ _) (h.code symbol.name hname)
  rw [Renaming.library, Renaming.library, hsame]

end Agree

end Renaming

namespace Analysis

/-- **Renaming never changes the bytes.** A renaming that keeps the routines and labels, the data
and the constants of an accepted program apart gives an accepted program, and in every environment
both objects link to libraries that differ in the names of their exports, or neither links. -/
theorem linked_of_renamed {text : String} {file file' : Option String} {p : Program}
    {extra : List String} {a : Analysis} {ρ : Renaming} (hparse : parse names text file = .ok p)
    (hanalysis : ofProgram p extra file' = .ok a) (hok : a.ok = true) (hρ : ρ.InjOn p)
    (name : Option String) :
    ∃ a' o o', ofProgram (ρ.program p) extra file' = .ok a' ∧ a'.ok = true ∧
      a.encode name = .ok o ∧ a'.encode name = .ok o' ∧
      ∀ env s, Both (fun l l' => l' = ρ.library l) (linkObject o env s) (linkObject o' env s) := by
  have hwritten := Syntax.parse_written hparse
  have hgauged : ∀ d ∈ p.data, Gauged d := fun d hd => gauged_of_plain (hwritten.data hd).2
  have hwf : p.WellFormed extra := by
    rw [← clean_found_iff hgauged, ← (ofProgram_found hgauged extra file').2 a hanalysis]
    exact ok_iff_clean.mp hok
  obtain ⟨σ, hσ, hagree⟩ := Renaming.exists_injective hρ
  obtain ⟨a', ha', hrenamed⟩ := ofProgram_renamed hσ hanalysis hok
  obtain ⟨o, ho, -, -⟩ := exists_encode hwritten (ofProgram_accepted hanalysis hok) hok name
  have hassembled := assembled_of_encode hparse hanalysis hok ho
  have hok' : a'.ok = true := by
    rw [ok_iff_clean, hrenamed.findings, ← ok_iff_clean]
    exact hok
  rw [hagree.program hwf] at ha'
  refine ⟨a', o, σ.object o, ha', hok', ho, encode_renamed hrenamed ho, fun env s => ?_⟩
  rcases Renaming.linkObject_renamed hσ o env s with ⟨l, l', hl, hl', rfl⟩ | hfail
  · exact Or.inl ⟨l, _, hl, hl', hagree.library hassembled hl⟩
  · exact Or.inr hfail

/-- A program with a routine, a label, a datum and a constant, three of which share a name. -/
def sharingSource : String :=
  ".CONST\nrun = 3\n.DATA\nrun = u8 1\n.ROUTINE run\nloop: inc a8[0], run\n" ++
  "putd s16[0], run\njif loop\nroutine run\n"

/-- The routine and its label change places, and the other names become that of the label. -/
def swapping : Renaming where
  code name := if name = "run" then "loop" else "run"
  data _ := "loop"
  const _ := "loop"

theorem linked_of_swapping : ∃ p a a' o o', parse Syntax.nameless sharingSource none = .ok p ∧
    ofProgram p [] none = .ok a ∧ a.ok = true ∧ swapping.InjOn p ∧
    ofProgram (swapping.program p) [] none = .ok a' ∧ a'.ok = true ∧
    a.encode none = .ok o ∧ a'.encode none = .ok o' ∧
    ∀ env s, Both (fun l l' => l' = swapping.library l) (linkObject o env s)
      (linkObject o' env s) := by
  obtain ⟨o, ho⟩ := Option.isSome_iff_exists.mp
    (by decide +kernel : (objectOf? sharingSource).isSome = true)
  obtain ⟨p, a, hparse, hanalysis, hok, -⟩ := stages_of_objectOf? ho
  have hnames : (parse Syntax.nameless sharingSource none).toOption.map
      (fun p => (p.codeNames, p.data.map (·.name), p.constants.map (·.name))) =
      some (["run", "loop"], ["run"], ["run"]) := by decide +kernel
  simp only [hparse, Except.toOption, Option.map_some, Option.some.injEq, Prod.mk.injEq] at hnames
  have hinj : swapping.InjOn p := by
    constructor
    · rw [hnames.1]
      intro x hx y hy hxy
      have hx : x = "run" ∨ x = "loop" := by simpa using hx
      have hy : y = "run" ∨ y = "loop" := by simpa using hy
      rcases hx with rfl | rfl <;> rcases hy with rfl | rfl <;>
        first | rfl | exact absurd hxy (by decide)
    · rw [hnames.2.1]
      simp
    · rw [hnames.2.2]
      simp
  obtain ⟨a', o, o', hrest⟩ := linked_of_renamed hparse hanalysis hok hinj none
  exact ⟨p, a, a', o, o', hparse, hanalysis, hok, hinj, hrest⟩

end Analysis

end AluVM
