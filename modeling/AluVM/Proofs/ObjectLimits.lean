import AluVM.Proofs.CodeOffsets
import AluVM.Proofs.DeclaredItems
import AluVM.Proofs.RecordedCalls
import Mathlib.Algebra.Order.BigOperators.Group.List
import Mathlib.Algebra.Order.Group.Nat
import Mathlib.Data.List.Flatten
import Mathlib.Tactic.MkIffOfInductiveProp

/-! # The limits of object files

A field of a file has room for so much and no more, and bytes can be written exactly if each field
has room for what it holds (`exists_encodeAll_iff`). The assembler keeps most of an object within
its fields: segments and offsets by its own limits, imports and relocations because the code is not
longer than that, ids of libraries because they are ids, and what a relocation names because the
object names it elsewhere (`AssembledLimits`). Nothing limits the names in a source, nor how many
routines, labels, data and libraries it has. So an assembled object can be written exactly if these
are within the limits (`WithinLimits`), and there are sources that the assembler accepts although
their object cannot be written (`toBytes_of_long_name`). -/

namespace AluVM

open Syntax

variable {names : CharacterNames}

/-! ### Fields that can be written -/

namespace Wire

mutual

/-- The bytes that a field takes. -/
def Field.size : Field → Nat
  | .u8 _ => 1
  | .u16 _ => 2
  | .u32 _ => 4
  | .text s => 2 + (Bytes.ofText s).length
  | .blob bytes => 4 + bytes.length
  | .nested fields => 4 + sizes fields

/-- The bytes that fields take one after the other. -/
def sizes : List Field → Nat
  | [] => 0
  | f :: fs => f.size + sizes fs

end

mutual

/-- **What a field has room for.** -/
def Field.Fits : Field → Prop
  | .u8 v => 0 ≤ v ∧ v < 256
  | .u16 v => 0 ≤ v ∧ v < 65536
  | .u32 v => 0 ≤ v ∧ v < 4294967296
  | .text s => (Bytes.ofText s).length < 65536
  | .blob bytes => bytes.length < 4294967296
  | .nested fields => AllFit fields ∧ sizes fields < 4294967296

/-- Each of the fields has room for what it holds. -/
def AllFit : List Field → Prop
  | [] => True
  | f :: fs => f.Fits ∧ AllFit fs

end

theorem length_of_number {size : Nat} {v : Int} {form : Bytes} (h : number size v = .ok form) :
    form.length = size := by
  obtain ⟨n, -, -, rfl⟩ := number_eq_ok_iff.mp h
  exact Bytes.length_ofNat size n

theorem length_of_counted {size : Nat} {bytes form : Bytes} (h : counted size bytes = .ok form) :
    form.length = size + bytes.length := by
  obtain ⟨-, rfl⟩ := counted_eq_ok_iff.mp h
  rw [List.length_append, Bytes.length_ofNat]

theorem exists_number_iff {size : Nat} {v : Int} :
    (∃ form, number size v = .ok form) ↔ 0 ≤ v ∧ v < 2 ^ (8 * size) := by
  constructor
  · rintro ⟨form, h⟩
    obtain ⟨n, rfl, hn, -⟩ := number_eq_ok_iff.mp h
    exact ⟨Int.natCast_nonneg n, by exact_mod_cast hn⟩
  · rintro ⟨hlow, hhigh⟩
    obtain ⟨n, rfl⟩ := Int.eq_ofNat_of_zero_le hlow
    exact ⟨_, number_eq_ok_iff.mpr ⟨n, rfl, by exact_mod_cast hhigh, rfl⟩⟩

theorem exists_counted_iff {size : Nat} {bytes : Bytes} :
    (∃ form, counted size bytes = .ok form) ↔ bytes.length < 2 ^ (8 * size) := by
  constructor
  · rintro ⟨form, h⟩
    exact (counted_eq_ok_iff.mp h).1
  · intro h
    exact ⟨_, counted_eq_ok_iff.mpr ⟨h, rfl⟩⟩

mutual

theorem Field.length_of_encode : ∀ (f : Field) {form : Bytes},
    f.encode = .ok form → form.length = f.size
  | .u8 v => length_of_number
  | .u16 v => length_of_number
  | .u32 v => length_of_number
  | .text s => length_of_counted
  | .blob bytes => length_of_counted
  | .nested fields => by
    intro h
    obtain ⟨body, hbody, hform⟩ := encode_nested.mp h
    rw [length_of_counted hform, length_of_encodeAll fields hbody, Field.size]

theorem length_of_encodeAll : ∀ (fs : List Field) {form : Bytes},
    encodeAll fs = .ok form → form.length = sizes fs
  | [] => by
    intro h
    rw [encodeAll_nil.mp h]
    rfl
  | f :: fs => by
    intro h
    obtain ⟨x, y, hx, hy, rfl⟩ := encodeAll_cons.mp h
    rw [List.length_append, f.length_of_encode hx, length_of_encodeAll fs hy, sizes]

end

mutual

theorem Field.exists_encode_iff : ∀ f : Field, (∃ form, f.encode = .ok form) ↔ f.Fits
  | .u8 v => exists_number_iff
  | .u16 v => exists_number_iff
  | .u32 v => exists_number_iff
  | .text s => exists_counted_iff
  | .blob bytes => exists_counted_iff
  | .nested fields => by
    simp only [encode_nested, Field.Fits, ← exists_encodeAll_iff fields]
    constructor
    · rintro ⟨form, body, hbody, hform⟩
      rw [← length_of_encodeAll fields hbody]
      exact ⟨⟨body, hbody⟩, exists_counted_iff.mp ⟨form, hform⟩⟩
    · rintro ⟨⟨body, hbody⟩, hsize⟩
      rw [← length_of_encodeAll fields hbody] at hsize
      obtain ⟨form, hform⟩ : ∃ form, counted 4 body = .ok form := exists_counted_iff.mpr hsize
      exact ⟨form, body, hbody, hform⟩

/-- **Fields can be written exactly if each has room for what it holds.** -/
theorem exists_encodeAll_iff : ∀ fs : List Field, (∃ form, encodeAll fs = .ok form) ↔ AllFit fs
  | [] => by simp [AllFit]
  | f :: fs => by
    simp only [encodeAll_cons, AllFit, ← f.exists_encode_iff, ← exists_encodeAll_iff fs]
    constructor
    · rintro ⟨-, x, y, hx, hy, rfl⟩
      exact ⟨⟨x, hx⟩, y, hy⟩
    · rintro ⟨⟨x, hx⟩, y, hy⟩
      exact ⟨_, x, y, hx, hy, rfl⟩

end

theorem allFit_iff {fs : List Field} : AllFit fs ↔ ∀ f ∈ fs, f.Fits := by
  induction fs with
  | nil => simp [AllFit]
  | cons f fs ih => rw [AllFit, ih, List.forall_mem_cons]

theorem allFit_append {fs gs : List Field} : AllFit (fs ++ gs) ↔ AllFit fs ∧ AllFit gs := by
  simp only [allFit_iff, List.mem_append, or_imp, forall_and]

theorem sizes_append (fs gs : List Field) : sizes (fs ++ gs) = sizes fs + sizes gs := by
  induction fs with
  | nil => simp [sizes]
  | cons f fs ih => rw [List.cons_append, sizes, sizes, ih, Nat.add_assoc]

theorem sizes_flatMap {α : Type} (fields : α → List Field) (as : List α) :
    sizes (as.flatMap fields) = (as.map fun a => sizes (fields a)).sum := by
  induction as with
  | nil => rfl
  | cons a as ih => rw [List.flatMap_cons, sizes_append, ih, List.map_cons, List.sum_cons]

/-- What a section with a list has room for: the number of things in it, each of them, and all of
them together. -/
theorem fits_table {α : Type} {count : Field} {fields : α → List Field} {as : List α} :
    (Field.nested (count :: as.flatMap fields)).Fits ↔ (count.Fits ∧ ∀ a ∈ as, AllFit (fields a)) ∧
      count.size + (as.map fun a => sizes (fields a)).sum < 4294967296 := by
  rw [Field.Fits, AllFit, sizes, sizes_flatMap]
  simp only [allFit_iff, List.mem_flatMap, forall_exists_index, and_imp]
  refine and_congr_left fun _ => and_congr_right fun _ => ?_
  exact ⟨fun h a ha f hf => h f a ha hf, fun h f a ha hf => h a ha f hf⟩

theorem allFit_byteFields (bytes : Bytes) : AllFit (byteFields bytes) :=
  (exists_encodeAll_iff _).mp ⟨bytes, encodeAll_byteFields.mpr rfl⟩

end Wire

/-! ### Objects that can be written -/

namespace Object

open Wire

/-- The names that an object publishes or asks for. -/
def tableNames (o : Object) : List String :=
  (o.exports ++ o.symbols).map (·.name) ++ o.imports.map (·.name) ++ o.libraries.map (·.name)

/-- The bytes of a list of symbols in a file. -/
def symbolBytes (symbols : List ObjectSymbol) : Nat :=
  2 + (symbols.map fun s => 7 + (Bytes.ofText s.name).length).sum

/-- The bytes of a list of libraries in a file. -/
def libraryBytes (libraries : List LibraryRef) : Nat :=
  2 + (libraries.map fun l =>
    4 + (Bytes.ofText l.name).length + (Bytes.ofText (l.id.getD "")).length).sum

/-- **The limits of object files** that an object can exceed. -/
@[mk_iff]
structure WithinLimits (o : Object) : Prop where
  names : ∀ name ∈ o.tableNames, (Bytes.ofText name).length ≤ 65535
  exports : o.exports.length ≤ 65535
  symbols : o.symbols.length ≤ 65535
  libraries : o.libraries.length ≤ 65535
  exportSection : symbolBytes o.exports < 4294967296
  symbolSection : symbolBytes o.symbols < 4294967296
  librarySection : libraryBytes o.libraries < 4294967296

instance (o : Object) : Decidable o.WithinLimits := decidable_of_iff' _ (withinLimits_iff o)

/-- **The limits of object files** that assembled objects keep. -/
structure AssembledLimits (o : Object) : Prop where
  mask : o.mask.Known
  entry : ∀ e ∈ o.entry, 0 ≤ e ∧ e ≤ 65536
  name : (Bytes.ofText o.name).length ≤ 65535
  code : o.code.length ≤ 65536
  data : o.data.length ≤ 65536
  values : ∀ s ∈ o.exports ++ o.symbols, 0 ≤ s.value ∧ s.value ≤ 65535
  imports : o.imports.length ≤ 24576
  ids : ∀ l ∈ o.libraries, (Bytes.ofText (l.id.getD "")).length ≤ 65535
  relocations : o.relocations.length ≤ 32768
  offsets : ∀ r ∈ o.relocations, 0 ≤ r.offset ∧ r.offset ≤ 65536
  targets : ∀ r ∈ o.relocations, r.target ∈ o.tableNames

theorem symbolKind_code_lt (kind : SymbolKind) : kind.code < 256 := by
  cases kind <;> decide

theorem fits_count {n : Nat} : (Field.u16 n).Fits ↔ n ≤ 65535 := by
  rw [Field.Fits]
  omega

theorem fits_symbols {symbols : List ObjectSymbol}
    (hvalues : ∀ s ∈ symbols, 0 ≤ s.value ∧ s.value ≤ 65535) :
    (Field.nested (symbolFields symbols)).Fits ↔ (symbols.length ≤ 65535 ∧
      ∀ s ∈ symbols, (Bytes.ofText s.name).length ≤ 65535) ∧
      symbolBytes symbols < 4294967296 := by
  have hsize : ∀ s : ObjectSymbol, sizes [.text s.name, .u8 s.kind.code, .u32 s.value] =
      7 + (Bytes.ofText s.name).length := by
    intro s
    simp only [sizes, Field.size]
    omega
  have hfits : ∀ s ∈ symbols, AllFit [.text s.name, .u8 s.kind.code, .u32 s.value] ↔
      (Bytes.ofText s.name).length ≤ 65535 := by
    intro s hs
    have hkind := symbolKind_code_lt s.kind
    have hvalue := hvalues s hs
    simp only [AllFit, Field.Fits, and_true]
    omega
  rw [symbolFields, fits_table, forall₂_congr hfits, fits_count]
  simp only [hsize, Field.size, symbolBytes]

theorem sum_map_le {α : Type} {as : List α} {size : α → Nat} {bound : Nat}
    (h : ∀ a ∈ as, size a ≤ bound) : (as.map size).sum ≤ as.length * bound := by
  have hsum := List.sum_le_card_nsmul (as.map size) bound (by simpa using h)
  rwa [List.length_map, nsmul_eq_mul, Nat.cast_id] at hsum

theorem fits_imports {imports : List Import} (hcount : imports.length ≤ 24576) :
    (Field.nested (.u16 imports.length ::
      imports.flatMap fun i => [.text i.name, .u8 i.kind.code])).Fits ↔
      ∀ i ∈ imports, (Bytes.ofText i.name).length ≤ 65535 := by
  have hfits : ∀ i ∈ imports, AllFit [.text i.name, .u8 i.kind.code] ↔
      (Bytes.ofText i.name).length ≤ 65535 := by
    intro i _
    have hkind := symbolKind_code_lt i.kind
    simp only [AllFit, Field.Fits, and_true]
    omega
  rw [fits_table, forall₂_congr hfits]
  constructor
  · rintro ⟨⟨-, hnames⟩, -⟩
    exact hnames
  · intro hnames
    have hsum : (imports.map fun i => sizes [.text i.name, .u8 i.kind.code]).sum ≤
        imports.length * 65538 := by
      refine sum_map_le fun i hi => ?_
      have hname := hnames i hi
      simp only [sizes, Field.size]
      omega
    simp only [Field.size, Field.Fits]
    exact ⟨⟨by omega, hnames⟩, by omega⟩

theorem fits_libraries {libraries : List LibraryRef}
    (hids : ∀ l ∈ libraries, (Bytes.ofText (l.id.getD "")).length ≤ 65535) :
    (Field.nested (.u16 libraries.length ::
      libraries.flatMap fun l => [.text l.name, .text (l.id.getD "")])).Fits ↔
      (libraries.length ≤ 65535 ∧ ∀ l ∈ libraries, (Bytes.ofText l.name).length ≤ 65535) ∧
      libraryBytes libraries < 4294967296 := by
  have hsize : ∀ l : LibraryRef, sizes [.text l.name, .text (l.id.getD "")] =
      4 + (Bytes.ofText l.name).length + (Bytes.ofText (l.id.getD "")).length := by
    intro l
    simp only [sizes, Field.size]
    omega
  have hfits : ∀ l ∈ libraries, AllFit [.text l.name, .text (l.id.getD "")] ↔
      (Bytes.ofText l.name).length ≤ 65535 := by
    intro l hl
    have hid := hids l hl
    simp only [AllFit, Field.Fits, and_true]
    omega
  rw [fits_table, forall₂_congr hfits, fits_count]
  simp only [hsize, Field.size, libraryBytes]

/-- A relocation names something that the object names elsewhere. -/
theorem AssembledLimits.fits_relocations {o : Object} (h : o.AssembledLimits)
    (hnames : ∀ name ∈ o.tableNames, (Bytes.ofText name).length ≤ 65535) :
    (Field.nested (.u32 o.relocations.length ::
      o.relocations.flatMap fun r => [.u32 r.offset, .u8 r.kind.code, .text r.target])).Fits := by
  have hcount := h.relocations
  have hcode : ∀ kind : RelocationKind, kind.code < 256 := by
    intro kind
    cases kind <;> decide
  have hsum : (o.relocations.map fun r =>
      sizes [.u32 r.offset, .u8 r.kind.code, .text r.target]).sum ≤
      o.relocations.length * 65542 := by
    refine sum_map_le fun r hr => ?_
    have htarget := hnames _ (h.targets r hr)
    simp only [sizes, Field.size]
    omega
  rw [fits_table]
  simp only [Field.size, Field.Fits]
  refine ⟨⟨by omega, fun r hr => ?_⟩, by omega⟩
  have htarget := hnames _ (h.targets r hr)
  have hkind := hcode r.kind
  have hoffset := h.offsets r hr
  simp only [AllFit, Field.Fits, and_true]
  omega

/-- What the first sections of a file hold always fits. -/
theorem AssembledLimits.allFit_lead {o : Object} (h : o.AssembledLimits) :
    AllFit (headerFields magic version o.mask o.entry) ∧
      AllFit [.nested (.text o.name :: byteFields []), .blob o.code, .blob o.data] := by
  obtain ⟨m, hm, hmask⟩ := h.mask
  have hentry : 0 ≤ o.entry.getD noEntry ∧ o.entry.getD noEntry < 4294967296 := by
    rcases hentry : o.entry with _ | e
    · decide
    · have hbound := h.entry e hentry
      simp only [Option.getD_some]
      omega
  have hversion : version = 1 := rfl
  have hname := h.name
  have hcode := h.code
  have hdata := h.data
  refine ⟨?_, ?_⟩
  · rw [headerFields, allFit_append]
    refine ⟨allFit_byteFields _, ?_⟩
    simp only [AllFit, Field.Fits, and_true, hversion, hmask, Int.ofNat_eq_natCast]
    omega
  · simp only [AllFit, Field.Fits, and_true, byteFields, List.map_nil, sizes, Field.size]
    omega

/-- **An object that keeps the other limits can be written exactly if it is within these.** -/
theorem AssembledLimits.exists_toBytes_iff {o : Object} (h : o.AssembledLimits) :
    (∃ raw, o.toBytes = .ok raw) ↔ o.WithinLimits := by
  obtain ⟨hheader, hlead⟩ := h.allFit_lead
  have hvalues := List.forall_mem_append.mp h.values
  have hfields : o.fieldsWith [] = headerFields magic version o.mask o.entry ++
      ([.nested (.text o.name :: byteFields []), .blob o.code, .blob o.data] ++
        o.fields.drop 3) := rfl
  simp only [toBytes_eq_ok, exists_encodeAll_iff, hfields, allFit_append, hheader, hlead, true_and]
  show AllFit [_, _, _, _, _] ↔ _
  simp only [AllFit, and_true, fits_symbols hvalues.1, fits_symbols hvalues.2,
    fits_imports h.imports, fits_libraries h.ids]
  constructor
  · rintro ⟨⟨⟨exports, hexports⟩, exportSection⟩, ⟨⟨symbols, hsymbols⟩, symbolSection⟩, himports,
      ⟨⟨libraries, hlibraries⟩, librarySection⟩, -⟩
    refine { names := ?_, exports, symbols, libraries, exportSection, symbolSection,
             librarySection }
    simp only [Object.tableNames, List.map_append, List.mem_append, List.mem_map]
    rintro name (((⟨s, hs, rfl⟩ | ⟨s, hs, rfl⟩) | ⟨i, hi, rfl⟩) | ⟨l, hl, rfl⟩)
    · exact hexports s hs
    · exact hsymbols s hs
    · exact himports i hi
    · exact hlibraries l hl
  · intro hlimits
    have hnames := hlimits.names
    simp only [Object.tableNames, List.map_append, List.forall_mem_append,
      List.forall_mem_map] at hnames
    obtain ⟨⟨⟨hexports, hsymbols⟩, himports⟩, hlibraries⟩ := hnames
    exact ⟨⟨⟨hlimits.exports, hexports⟩, hlimits.exportSection⟩,
      ⟨⟨hlimits.symbols, hsymbols⟩, hlimits.symbolSection⟩, himports,
      ⟨⟨hlimits.libraries, hlibraries⟩, hlimits.librarySection⟩, h.fits_relocations hlimits.names⟩

end Object

/-! ### The name of an object -/

namespace Path

theorem length_ofText_le_of_sublist {s t : String} (h : s.toList.Sublist t.toList) :
    (Bytes.ofText s).length ≤ (Bytes.ofText t).length := by
  unfold Bytes.ofText
  exact (h.flatMap _).length_le

theorem sublist_of_mem_pieces {piece cs : List Char} {part : String}
    (h : part ∈ pieces piece cs) : part.toList.Sublist (piece.reverse ++ cs) := by
  fun_induction pieces piece cs with
  | case1 piece =>
    rw [List.mem_singleton.mp h]
    simp
  | case2 piece cs ih =>
    rcases List.mem_cons.mp h with rfl | h
    · simp
    · exact (ih h).trans ((List.sublist_cons_self ..).trans (List.sublist_append_right ..))
  | case3 piece c cs hc ih =>
    simpa using ih h

theorem sublist_stem (text : String) : (ofText text).stem.toList.Sublist text.toList := by
  rcases stem_ofText text with hempty | ⟨part, hpart, hstem⟩
  · simp [hempty]
  · exact hstem.sublist.trans (sublist_of_mem_pieces hpart)

end Path

namespace Analysis

variable {text : String} {file file' name : Option String} {p : Program} {extra : List String}
  {a : Analysis} {o : Object}

theorem length_defaultName_le (hfile : ∀ f ∈ file, (Bytes.ofText f).length ≤ 65535) :
    (Bytes.ofText (defaultName file)).length ≤ 65535 := by
  have hmodule : (Bytes.ofText "module").length ≤ 65535 := by decide +kernel
  unfold defaultName
  split
  · rename_i f
    split_ifs
    · exact hmodule
    · exact (Path.length_ofText_le_of_sublist (Path.sublist_stem f)).trans (hfile f rfl)
  · exact hmodule

/-! ### Calls and relocations -/

theorem length_slots_le : ∀ spec ∈ Spec.all, spec.slots.length ≤ 3 := by decide +kernel

/-- An instruction has three operands at most. -/
theorem length_calls_le (i : Instruction) : i.calls.length ≤ 3 := by
  rcases hspec : Spec.named? i.mnemonic with _ | spec
  · simp [Instruction.calls, hspec]
  · simp only [Instruction.calls, hspec]
    split_ifs
    · refine (List.length_filterMap_le ..).trans ?_
      rw [List.length_zip]
      exact (Nat.min_le_right ..).trans (length_slots_le spec (Spec.named?_eq_some.mp hspec).1)
    · simp

theorem length_calls_le_instructions (p : Program) :
    p.calls.length ≤ 3 * p.instructions.length := by
  unfold Program.calls
  induction p.instructions with
  | nil => simp
  | cons i is ih =>
    have hi := length_calls_le i
    rw [List.flatMap_cons, List.length_append, List.length_cons]
    omega

/-- The code of an object has two bytes at least for each relocation. -/
theorem two_mul_length_le {rs : List Relocation} (h : rs.Pairwise Relocation.Before)
    {low high : Int} (hle : low ≤ high) (hlow : ∀ r ∈ rs, low ≤ r.offset)
    (hhigh : ∀ r ∈ rs, r.offset + r.kind.width ≤ high) : 2 * (rs.length : Int) ≤ high - low := by
  induction rs generalizing low with
  | nil =>
    rw [List.length_nil]
    omega
  | cons r rs ih =>
    obtain ⟨hfirst, hrest⟩ := List.pairwise_cons.mp h
    obtain ⟨hr, hrs⟩ := List.forall_mem_cons.mp hhigh
    have hwidth : 2 ≤ r.kind.width := by
      cases r.kind <;> decide
    have hstart := hlow r List.mem_cons_self
    have hlength := ih hrest hr hfirst hrs
    rw [List.length_cons]
    omega

/-! ### The ids of libraries -/

/-- An id in a source is no longer than a known algorithm and the digits of a digest. -/
theorem length_id_le {id : String} (hword : id.toList ∈ Lexeme.libraryId) (hid : IsId id) :
    (Bytes.ofText id).length ≤ 300 := by
  obtain ⟨s, hs, digits, hstrip, hdigits, -⟩ := hid
  obtain ⟨_, run, ⟨c, cs, rfl, hc⟩, hall, hrun, htext⟩ := mem_libraryId.mp hword
  obtain ⟨hrun, hhex⟩ := Lexeme.mem_many.mp hrun
  have hself : Text.stripChars id.toList = id.toList := by
    have hname : ContentId.isAlgorithmName (c :: cs) = true := by
      rw [ContentId.isAlgorithmName, hc, Bool.true_and, List.all_eq_true]
      exact (List.forall_mem_cons.mp hall).2
    rw [htext]
    refine ContentId.stripChars_id hname hrun fun d hd => ?_
    rw [← isHexDigit_eq]
    exact hhex d hd
  have hlength := congrArg List.length (hself.symm.trans hstrip)
  have hname := (s.name_spec hs).2
  have hbytes := Bytes.length_ofText_le id
  rw [List.length_append, List.length_cons, hdigits] at hlength
  omega

theorem parse_declared_id (h : parse names text file = .ok p) {d : LibraryDecl}
    (hd : d ∈ p.libraries) {id : String} (hid : d.id = some id) : id.toList ∈ Lexeme.libraryId := by
  obtain ⟨item, hitem, heq⟩ := List.mem_filterMap.mp hd
  cases item <;> cases heq
  obtain ⟨st, htyped, hdeclares⟩ := parse_declared h hitem (by simp)
  cases hdeclares with
  | library =>
    obtain ⟨t, ht, rfl⟩ := Option.map_eq_some_iff.mp hid
    exact (htyped.2 t ht).mem_language

theorem Layout.libraries_of_clean {sizes : List (Nat × List Cause)}
    (h : Clean (Layout.ofProgram p extra sizes).2) :
    (Layout.ofProgram p extra sizes).1.libraries = p.libraries.map fun d => (d.name, d.id) := by
  simp only [ofProgram, clean_append] at h ⊢
  obtain ⟨⟨⟨⟨⟨⟨-, hlibraries⟩, hconstants⟩, hdata⟩, -⟩, hcode⟩, -⟩ := h
  rw [gather_addRoutine] at hcode ⊢
  rw [(gather_addLine hcode).libraries, (gather_addDatum hdata).libraries,
    (gather_addConstant hconstants).libraries,
    (gather_addLibrary gather_addExtension hlibraries).libraries]


/-! ### What an assembled object names -/

theorem Layout.Laid.no_imports {sizes : List (Nat × List Cause)} {l : Layout}
    (h : l.Laid p sizes) : ∀ s ∈ l.symbols.toList, s.kind ≠ .importedExternal := by
  intro s hs
  rw [h.symbols, List.mem_append, List.mem_append, List.mem_map, List.mem_map] at hs
  rcases hs with (⟨d, -, rfl⟩ | ⟨q, -, rfl⟩) | hmark
  · simp [constantSymbol]
  · simp [PlacedDatum.symbol]
  · rcases marks_kind hmark with hkind | hkind <;> simp [hkind]

section Stages
variable (hparse : parse names text file = .ok p) (hanalysis : ofProgram p extra file' = .ok a)
  (hok : a.ok = true) (hencode : a.encode name = .ok o)
include hanalysis

theorem clean_firstPass (hok : a.ok = true) : Clean (firstPass p extra).2 := by
  have hclean := ok_iff_clean.mp hok
  rw [(passes_of_ofProgram hanalysis).2.2.2, clean_append, clean_append] at hclean
  exact hclean.1.1

include hencode

/-- Every routine of a library that is called is an import. -/
theorem exists_import {c : String × String} (hc : c ∈ p.calls) :
    ∃ i ∈ o.imports, i.name = Operand.callName c.1 c.2 := by
  obtain ⟨x, hx, hkind, hname⟩ := (records_secondPass p extra).declared c hc
  obtain ⟨-, room, words, blocks, -, -, -, -, rfl⟩ := encode_eq_ok.mp hencode
  have hmem : x ∈ a.symbols.ofKinds [.importedExternal] := by
    rw [SymbolTable.ofKinds, (passes_of_ofProgram hanalysis).2.1]
    exact List.mem_filter.mpr ⟨List.mem_reverse.mpr hx, by simp [hkind]⟩
  exact ⟨_, List.mem_map.mpr ⟨x, hmem, rfl⟩, hname⟩

include hok

/-- There are no more imports than calls. -/
theorem length_imports_le : o.imports.length ≤ p.calls.length := by
  have hlaid := Layout.ofProgram_laid (clean_firstPass hanalysis hok)
  obtain ⟨new, hnew, hlength⟩ := (records_secondPass p extra).symbols
  obtain ⟨-, room, words, blocks, -, -, -, -, rfl⟩ := encode_eq_ok.mp hencode
  have hnone : (firstPass p extra).1.symbols.newestFirst.filter
      (·.kind ∈ [SymbolKind.importedExternal]) = [] := by
    refine List.filter_eq_nil_iff.mpr fun s hs => ?_
    simpa using hlaid.no_imports s (List.mem_reverse.mpr hs)
  have hfilter := new.length_filter_le (·.kind ∈ [SymbolKind.importedExternal])
  simp only [ofParts, List.length_map, SymbolTable.ofKinds, SymbolTable.toList, List.filter_reverse,
    List.length_reverse, (passes_of_ofProgram hanalysis).2.1, hnew, List.filter_append,
    Layout.start, hnone, List.append_nil]
  exact hfilter.trans hlength

include hparse

theorem length_libraryId_le : ∀ l ∈ o.libraries, (Bytes.ofText (l.id.getD "")).length ≤ 300 := by
  intro l hl
  have hassembled := assembled_of_encode hparse hanalysis hok hencode
  have hover : (secondPass p extra).1.scope.Over (firstPass p extra).1 :=
    Progress.over_gather p.instructions (firstPass p extra).1.over_start
  rw [hassembled.encoded.libraries, (passes_of_ofProgram hanalysis).2.2.1] at hl
  obtain ⟨x, hx, rfl⟩ := List.mem_map.mp hl
  rcases hid : x.2 with _ | id
  · simp only [hid]
    decide
  · rcases hover.libraries x hx with hx | hnone
    · rw [firstPass, Layout.libraries_of_clean (clean_firstPass hanalysis hok)] at hx
      obtain ⟨d, hd, rfl⟩ := List.mem_map.mp hx
      have hwellFormed := wellFormed_of_ok hparse hanalysis hok
      simp only at hid ⊢
      rw [hid]
      exact length_id_le (parse_declared_id hparse hd hid) (hwellFormed.ids d hd id hid)
    · cases hid.symm.trans hnone

theorem target_mem_tableNames : ∀ r ∈ o.relocations, r.target ∈ o.tableNames := by
  intro r hr
  have hassembled := assembled_of_encode hparse hanalysis hok hencode
  have hsymbol : ∀ x ∈ o.exports ++ o.symbols, x.name ∈ o.tableNames := fun x hx =>
    List.mem_append_left _ (List.mem_append_left _ (List.mem_map.mpr ⟨x, hx, rfl⟩))
  obtain ⟨k, ⟨place, slot, meaning⟩, i, spec, operand, hrc, -, -, -, hi, hspec, hcount, hpair,
    hclass⟩ := hassembled.exists_cell hr
  rcases hassembled.exists_target hr with ⟨-, x, hx, hname, -⟩ | ⟨-, x, hx, hname, -⟩ | ⟨hkind, -⟩
  · exact hname ▸ hsymbol x hx
  · exact hname ▸ hsymbol x hx
  · simp only at hclass
    cases hclass with
    | register | literal | constant => cases hrc
    | label | datum =>
      cases hrc
      cases hkind
    | @call library routine =>
      cases hrc
      have hcall : (library, routine) ∈ p.calls := by
        refine List.mem_flatMap.mpr ⟨i, hi, ?_⟩
        simp only [Instruction.calls, hspec, hcount, if_true]
        exact List.mem_filterMap.mpr ⟨_, hpair, rfl⟩
      obtain ⟨import', himport, hname⟩ := exists_import hanalysis hencode hcall
      exact List.mem_append_left _
        (List.mem_append_right _ (List.mem_map.mpr ⟨import', himport, hname⟩))

end Stages

/-- **The limits that every assembled object keeps**, if the name of its source does. -/
theorem assembledLimits_of_ofText {assembly : Assembly}
    (h : Assembly.ofText names text file extra = .ok assembly) (ho : assembly.object = some o)
    (hfile : ∀ f ∈ file, (Bytes.ofText f).length ≤ 65535) : o.AssembledLimits := by
  obtain ⟨p, a, hparse, hanalysis, hok, hencode⟩ := stages_of_ofText h ho
  have hassembled := assembled_of_encode hparse hanalysis hok hencode
  obtain ⟨hcode, hfull⟩ := hassembled.length_code_eq
  have hwellFormed := hassembled.wellFormed
  have hlimits : maxSegment = 65536 ∧ maxOffset = 65535 := ⟨rfl, rfl⟩
  refine ⟨hwellFormed.mask, ?_, ?_, by omega, hwellFormed.length_data, hwellFormed.reach, ?_, ?_,
    ?_, ?_, target_mem_tableNames hparse hanalysis hok hencode⟩
  · intro e he
    rw [entry_of_encode hencode] at he
    obtain ⟨n, hn, rfl⟩ := Option.map_eq_some_iff.mp he
    have hentry := entry_le_codeSize hanalysis n hn
    have hsize := hassembled.accepted.codeSize_le
    rw [Int.ofNat_eq_natCast]
    omega
  · have hname : o.name = defaultName a.file := by
      obtain ⟨-, room, words, blocks, -, -, -, -, rfl⟩ := encode_eq_ok.mp hencode
      rfl
    obtain ⟨-, -, -, -, hpfile⟩ := parse_eq_ok.mp hparse
    have hafile : a.file = file := by
      rw [(passes_of_ofProgram hanalysis).1, hpfile]
      cases file <;> rfl
    rw [hname, hafile]
    exact length_defaultName_le hfile
  · have himports := length_imports_le hanalysis hok hencode
    have hcalls := length_calls_le_instructions p
    omega
  · intro l hl
    have hid := length_libraryId_le hparse hanalysis hok hencode l hl
    omega
  · have hstart : ∀ r ∈ o.relocations, 0 ≤ r.offset := fun r hr => by
      have hinside := hassembled.inside hr
      omega
    have hcount : 2 * (o.relocations.length : Int) ≤ o.code.length - 0 :=
      two_mul_length_le hassembled.relocations_pairwise (by omega) hstart
        fun r hr => (hassembled.inside hr).2
    omega
  · intro r hr
    have hinside := hassembled.inside hr
    omega

end Analysis

/-! ### Writing assembled objects -/

theorem Object.toBytes_eq_error {o : Object} (h : ¬ ∃ raw, o.toBytes = .ok raw) :
    o.toBytes = .error .fieldRange := by
  have hheader : Steps.Yields (fun _ => True) (· = .fieldRange)
      (Wire.header magic version o.mask o.entry) :=
    (Wire.encodeFrom_yields [] _).bind fun _ _ => trivial
  have hyields : Steps.Yields (fun _ => True) (· = .fieldRange) o.toBytes :=
    hheader.bind fun _ _ => (Wire.encodeFrom_yields [] o.fields).bind fun _ _ => trivial
  rcases htoBytes : o.toBytes with e | raw
  · rw [htoBytes] at hyields
    rw [show e = .fieldRange from hyields]
  · exact absurd ⟨raw, htoBytes⟩ h

namespace Analysis

/-- **An assembled object can be written exactly if it is within the limits of its tables**;
otherwise writing fails, and nothing was reported before. -/
theorem toBytes_isOk_iff_withinLimits {text : String} {file : Option String} {extra : List String}
    {assembly : Assembly} {o : Object} (h : Assembly.ofText names text file extra = .ok assembly)
    (ho : assembly.object = some o) (hfile : ∀ f ∈ file, (Bytes.ofText f).length ≤ 65535) :
    ((∃ raw, o.toBytes = .ok raw) ↔ o.WithinLimits) ∧
      (¬ o.WithinLimits → o.toBytes = .error .fieldRange) := by
  have hiff := (assembledLimits_of_ofText h ho hfile).exists_toBytes_iff
  exact ⟨hiff, fun hno => Object.toBytes_eq_error (mt hiff.mp hno)⟩

/-- A routine that calls a library with a fixed id, a label, and a datum. -/
def pinnedSource : String :=
  ".LIBS\nstd = sha256:000102030405060708090a0b0c0d0e0f101112131415161718191a1b1c1d1e1f\n" ++
    ".DATA\nn = u8 1\n.ROUTINE f\nl: call std.hash\n"

theorem toBytes_isOk_iff_withinLimits_pinned : ∃ assembly o,
    Assembly.ofText nameless pinnedSource (some "lib/m.aluasm") [] = .ok assembly ∧
    assembly.object = some o ∧ o.tableNames = ["f", "n", "l", "std.hash", "std"] ∧
    ∃ raw, o.toBytes = .ok raw := by
  obtain ⟨o, hfilter⟩ := Option.isSome_iff_exists.mp
    (by decide +kernel : ((objectAt? pinnedSource "lib/m.aluasm").filter fun o => decide
      (o.tableNames = ["f", "n", "l", "std.hash", "std"] ∧ o.WithinLimits)).isSome)
  obtain ⟨hobject, hparts⟩ := Option.filter_eq_some_iff.mp hfilter
  obtain ⟨assembly, hassembly, ho⟩ := Option.bind_eq_some_iff.mp hobject
  obtain ⟨hnames, hlimits⟩ := of_decide_eq_true hparts
  have hassembly := Steps.toOption_eq_some.mp hassembly
  have hfile : ∀ f ∈ some "lib/m.aluasm", (Bytes.ofText f).length ≤ 65535 := by decide +kernel
  have hwritten := (toBytes_isOk_iff_withinLimits hassembly ho hfile).1.mpr hlimits
  exact ⟨assembly, o, hassembly, ho, hnames, hwritten⟩

/-! ### Names that are too long -/

/-- A source with an empty routine of a given name. -/
def routineSource (name : String) : String := ".ROUTINE " ++ name ++ "\n"

/-- The program of such a source. -/
def routineProgram (name : String) : Program where
  items := [.routine ⟨some name, [], ⟨1, 10⟩⟩]

theorem parse_routineSource {name : String} (hname : IsName name) :
    parse names (routineSource name) none = .ok (routineProgram name) := by
  have htext : (routineSource name).toList = ['.', 'R', 'O', 'U', 'T', 'I', 'N', 'E'] ++ ([' '] ++
      (name.toList ++ ['\n'])) := by
    simp [routineSource]
  have hread : readStatements (routineSource name) = .ok [.routine ⟨.name, name, ⟨1, 10⟩⟩] := by
    refine readStatements_of_goes_closed htext ?_ ((goes_fixed (k := .keyword .routine) rfl
      (by decide) rfl).append (goes_blank.append
        ((goes_name hname ⟨'\n', _, rfl, rfl⟩ rfl).append (goes_newline rfl))))
    simp only [← List.append_assoc, List.getLast?_concat]
  have hdenote : Denote names [⟨some (.routine ⟨.name, name, ⟨1, 10⟩⟩), []⟩]
      (routineProgram name).items :=
    ⟨_, .cons (.routine .nil .routine) .nil, rfl⟩
  exact hdenote.parse_eq hread

theorem lines_routineProgram (name : String) :
    (routineProgram name).lines = [.mark .exportedLabel name ⟨1, 10⟩] := rfl

theorem instructions_routineProgram (name : String) : (routineProgram name).instructions = [] := rfl

theorem wellFormed_routineProgram (name : String) : (routineProgram name).WellFormed [] where
  extensions := by simp [Program.asked, Program.extensions, routineProgram]
  libraries := by simp [Program.libraries, routineProgram]
  ids := by simp [Program.libraries, routineProgram]
  constants := by simp [Program.constants, routineProgram]
  data := by simp [Program.data, routineProgram]
  room := ⟨[], by simp [Program.data, routineProgram]⟩
  main := by simp [Program.routines, routineProgram]
  code := by simp [Program.codeNames, lines_routineProgram, CodeLine.name?]
  reach := by
    intro before kind name' pos after hsplit
    rw [lines_routineProgram] at hsplit
    rcases before with _ | ⟨line, before⟩
    · simp [wordsOf]
    · simp at hsplit
  size := by simp [instructions_routineProgram]
  instructions := by simp [instructions_routineProgram]

theorem exists_ofText {text : String} {file : Option String} {extra : List String} {p : Program}
    {a : Analysis} {o : Object} (hparse : parse names text file = .ok p)
    (hanalysis : ofProgram p extra file = .ok a) (hok : a.ok = true)
    (hencode : a.encode none = .ok o) :
    ∃ assembly, Assembly.ofText names text file extra = .ok assembly ∧ assembly.object = some o := by
  simp only [Assembly.ofText, hparse, hanalysis, Assembly.ofAnalysis, hok, hencode, if_true]
  exact ⟨_, rfl, rfl⟩

/-- An accepted source with a name of more than 65535 bytes has an object that cannot be
written. -/
theorem toBytes_of_routineSource {name : String} (hname : IsName name)
    (hlong : 65535 < (Bytes.ofText name).length) : ∃ assembly o,
    Assembly.ofText names (routineSource name) none [] = .ok assembly ∧ assembly.object = some o ∧
      o.toBytes = .error .fieldRange := by
  have hparse := @parse_routineSource names name hname
  obtain ⟨a, o, hanalysis, hok, hencode⟩ :=
    exists_object_of_wellFormed hparse (wellFormed_routineProgram name) none none
  obtain ⟨assembly, hassembly, ho⟩ := exists_ofText hparse hanalysis hok hencode
  have hassembled := assembled_of_encode hparse hanalysis hok hencode
  refine ⟨assembly, o, hassembly, ho, Object.toBytes_eq_error fun hwritten => ?_⟩
  have hlimits := (assembledLimits_of_ofText hassembly ho (by simp)).exists_toBytes_iff.mp hwritten
  obtain ⟨imports, hsymbols, -⟩ := hassembled.accepted.symbols
  have hexport : (⟨name, .exportedLabel, 0⟩ : ObjectSymbol) ∈ o.exports := by
    refine hassembled.encoded.mem_exports.mpr
      ⟨⟨name, .exportedLabel, some 0, some ⟨1, 10⟩⟩, ?_, rfl, rfl⟩
    rw [hsymbols, lines_routineProgram]
    simp [marks]
  have hmem : name ∈ o.tableNames := List.mem_append_left _ (List.mem_append_left _
    (List.mem_map.mpr ⟨_, List.mem_append_left _ hexport, rfl⟩))
  exact absurd (hlimits.names name hmem) (Nat.not_le.mpr hlong)

/-- A name of `n` letters. -/
def longName (n : Nat) : String := String.ofList (List.replicate n 'a')

theorem isName_longName (n : Nat) : IsName (longName (n + 1)) := by
  refine ⟨'a', List.replicate n 'a', by simp [longName, List.replicate_succ], by decide, ?_⟩
  intro c hc
  rw [List.eq_of_mem_replicate hc]
  decide

theorem length_longName (n : Nat) : (Bytes.ofText (longName n)).length = n := by
  have hletter : String.utf8EncodeChar 'a' = [97] := by decide
  rw [longName, Bytes.ofText, String.toList_ofList, List.flatMap_replicate, hletter]
  simp

/-- **An accepted source whose object cannot be written.** -/
theorem toBytes_of_long_name : ∃ assembly o,
    Assembly.ofText nameless (routineSource (longName 65536)) none [] = .ok assembly ∧
      assembly.object = some o ∧ o.toBytes = .error .fieldRange := by
  refine toBytes_of_routineSource (isName_longName 65535) ?_
  rw [length_longName]
  decide

end Analysis

end AluVM
