import AluVM.Proofs.Outcomes
import AluVM.Proofs.Resolution

/-! # The assembler from source to library

The code of a library, word by word, in terms of the source that it was assembled from. What a
field of a word has to hold is the relation `Asks` between a slot, the operand that the source
writes there and the bytes of the field. It speaks of the source and of the library only: a label
by the number of instructions before its declaration, a datum by the sizes of the declarations
before its own, a routine of a library by the library that its local name stands for.

The proof follows a word through the stages. The cells of a word are disjoint from those of all
other words, so a cell without a relocation is as the encoder left it, and a cell with one holds
what the linker wrote into its field. -/

namespace AluVM.Analysis

open Syntax

variable {names : CharacterNames}

/-- **What the field of an operand has to hold** in the library of a program. -/
inductive Asks (p : Program) (env : Environment) (s : ContentId.Strategy) (o : Object)
    (lib : Library) : Slot → Operand → Bytes → Prop where
  | register {banks : List Bank} {sets : List String} {token : String} {index : Int}
      {set : RegisterSet} (named : RegisterSet.named? token = some set)
      (inside : set.hasIndex index = true) :
      Asks p env s o lib (.register banks sets) (.register token index)
        [UInt8.ofNat set.code, UInt8.ofNat index.toNat]
  | literal {bits : Nat} {signed : Bool} {i : Immediate} {field : Bytes}
      (packed : Integer.pack i.value (Slot.immediate bits signed).size signed = .ok field) :
      Asks p env s o lib (.immediate bits signed) (.immediate i) field
  | constant {bits : Nat} {signed : Bool} {d : ConstantDecl} {field : Bytes}
      (declared : d ∈ p.constants)
      (packed : Integer.pack d.value.value (Slot.immediate bits signed).size signed = .ok field) :
      Asks p env s o lib (.immediate bits signed) (.symbol d.name) field
  | label {before after : List CodeLine} {kind : SymbolKind} {name : String} {pos : Position}
      (declared : p.lines = before ++ .mark kind name pos :: after)
      (reach : wordSize * (wordsOf before).length ≤ maxOffset) :
      Asks p env s o lib .label (.symbol name)
        (Bytes.ofNat 2 (wordSize * (wordsOf before).length))
  | datum {before after : List DataDecl} {d : DataDecl}
      (declared : p.data = before ++ d :: after)
      (reach : (before.map datumRoom).sum ≤ maxOffset) :
      Asks p env s o lib .data (.symbol d.name) (Bytes.ofNat 2 (before.map datumRoom).sum)
  | call {library routine id : String} {l : Library} {offset : Int} {index : Nat}
      (resolved : resolution? env s o library = some l)
      (exported : exportOffset? l.exports routine = some offset)
      (low : 0 ≤ offset) (high : offset ≤ maxOffset)
      (listed : lib.libraries[index]? = some id) (normal : ContentId.normalize l.id = .ok id)
      (small : index < Job.maxLibraries) :
      Asks p env s o lib .foreign (.call library routine)
        (UInt8.ofNat index :: Bytes.ofNat 2 offset.toNat)

/-! ### The word of an instruction in the object -/

section Word
variable {p : Program} {a : Analysis} {o : Object}

/-- The pieces of a word in the object: opcode, cells and zeros. -/
theorem Encoded.word_pieces (h : Encoded a o) {t : SymbolTable} {mask : Mask} {k : Nat}
    {i : Instruction} {q : Placed} (hq : a.code[k]? = some q)
    (hsound : Sound t mask (wordSize * k) i q) :
    slice o.code (wordSize * k) 1 = [q.spec.opcode] ∧
      (∀ c ∈ q.cells, q.field a.file c.slot c.operand = .ok (slice o.code c.place c.slot.size)) ∧
      slice o.code (wordSize * k + 1 + q.spec.operandBytes) (wordSize - 1 - q.spec.operandBytes) =
        List.replicate (wordSize - 1 - q.spec.operandBytes) 0 := by
  obtain ⟨fields, hfields, hword⟩ := h.word k q hq
  have hlen := hsound.length_word hfields
  have hlt := hsound.operandBytes_lt
  have hk : k < a.code.length := (List.getElem?_eq_some_iff.mp hq).1
  have hend : wordSize * k + wordSize ≤ o.code.length := by
    rw [h.length_code]
    exact Nat.mul_le_mul_left wordSize hk
  have hpad : padWord (q.spec.opcode :: fields.flatten) = [q.spec.opcode] ++
      (fields.flatten ++ List.replicate (wordSize - 1 - q.spec.operandBytes) 0) := by
    simp only [padWord, List.length_cons, hlen.1, List.cons_append, List.nil_append]
    congr 3
    omega
  have hwhole : slice o.code (wordSize * k)
      (1 + (q.spec.operandBytes + (wordSize - 1 - q.spec.operandBytes))) = [q.spec.opcode] ++
        (fields.flatten ++ List.replicate (wordSize - 1 - q.spec.operandBytes) 0) := by
    rw [show 1 + (q.spec.operandBytes + (wordSize - 1 - q.spec.operandBytes)) = wordSize by omega,
      hword, hpad]
  rw [slice_split, slice_split] at hwhole
  obtain ⟨hopcode, hrest⟩ := List.append_inj hwhole (length_slice (by omega))
  obtain ⟨hcells, hzeros⟩ := List.append_inj hrest ((length_slice (by omega)).trans hlen.1.symm)
  refine ⟨hopcode, ?_, hzeros⟩
  have hplace : q.cells = cellsAt (wordSize * k + 1) q.pairs := by
    rw [Placed.cells, hsound.offset, Int.toNat_natCast]
  rw [← hsound.roomOfSlots_pairs] at hcells
  have hslices := slices_eq_of_flatten (by rw [hsound.roomOfSlots_pairs]; omega)
    (hfields.imp fun _ _ hf => hf.2) hcells
  rw [← hslices, ← hplace] at hfields
  conv at hfields => arg 2; rw [← cellsAt_pairs (wordSize * k + 1) q.pairs, ← hplace]
  rw [List.forall₂_map_left_iff, List.forall₂_map_right_iff, List.forall₂_same] at hfields
  exact fun c hc => (hfields c hc).1

/-- A place of a word that is in a field is in a cell of that word. -/
theorem Assembled.cell_of_covers (h : Assembled p a o) {k i : Nat} {q : Placed}
    (hq : a.code[k]? = some q) (hlow : wordSize * k ≤ i) (hhigh : i < wordSize * k + wordSize)
    {r : Relocation} (hr : r ∈ o.relocations) (hcovers : r.Covers i) :
    ∃ c ∈ q.cells, c.relocation? = some r ∧ c.place ≤ i ∧ i < c.place + c.slot.size := by
  rw [h.encoded.relocations] at hr
  obtain ⟨c, hc, hrc⟩ := List.mem_filterMap.mp hr
  obtain ⟨q', hq', hc⟩ := List.mem_flatMap.mp hc
  obtain ⟨k', i', hk', -, hsound⟩ := h.accepted.sound_of_mem hq'
  have hbounds := hsound.mem_cells hc
  have hplace := relocation?_place hrc
  simp only [Relocation.Covers] at hcovers
  have hin : c.place ≤ i ∧ i < c.place + c.slot.size := by omega
  -- words do not overlap, so it is the same word
  have hsame : k' = k := by
    simp only [wordSize] at hbounds hlow hhigh
    omega
  subst hsame
  cases hk'.symm.trans hq
  exact ⟨c, hc, hrc, hin⟩

/-! ### The word of an instruction in the library -/

/-- What linking leaves as it is: places of a word outside the cells with a relocation. -/
theorem Assembled.slice_eq (h : Assembled p a o) {env : Environment} {s : ContentId.Strategy}
    {lib : Library} (hlinked : Linked env s o lib) {k place size : Nat} {q : Placed}
    (hq : a.code[k]? = some q) (hlow : wordSize * k ≤ place)
    (hhigh : place + size ≤ wordSize * k + wordSize)
    (hfree : ∀ c ∈ q.cells, c.relocation? ≠ none →
      c.place + c.slot.size ≤ place ∨ place + size ≤ c.place) :
    slice lib.code place size = slice o.code place size := by
  refine slice_congr fun i hi hi' => hlinked.outside i fun r hr hcovers => ?_
  obtain ⟨c, hc, hrc, hplace⟩ := h.cell_of_covers hq (by omega) (by omega) hr hcovers
  have := hfree c hc (by simp [hrc])
  omega

/-- Two different cells of a word are apart. -/
theorem cells_apart {q : Placed} {c d : Cell} (hc : c ∈ q.cells) (hd : d ∈ q.cells) (hne : c ≠ d) :
    c.place + c.slot.size ≤ d.place ∨ d.place + d.slot.size ≤ c.place := by
  have hpairwise : q.cells.Pairwise fun c d => c.Before d ∨ d.Before c :=
    (cellsAt_pairwise _ _).imp Or.inl
  have : Std.Symm fun c d : Cell => c.Before d ∨ d.Before c := ⟨fun _ _ => Or.symm⟩
  exact hpairwise.forall hc hd hne

theorem Encoded.mem_relocations (h : Encoded a o) {q : Placed} (hq : q ∈ a.code) {c : Cell}
    (hc : c ∈ q.cells) {r : Relocation} (hr : c.relocation? = some r) : r ∈ o.relocations := by
  rw [h.relocations]
  exact List.mem_filterMap.mpr ⟨c, List.mem_flatMap.mpr ⟨q, hq, hc⟩, hr⟩

section Link
variable {env : Environment} {s : ContentId.Strategy} {lib : Library}

theorem Assembled.asks_label (h : Assembled p a o) {place : Nat} {name : String} {field : Bytes}
    (hholds : Holds env s o lib ⟨place, .localOffset, name⟩ field) :
    Asks p env s o lib .label (.symbol name) field := by
  cases hholds with
  | @label symbol _ found low high =>
    obtain ⟨hmem, hname, hkind⟩ := lookup?_eq_some found
    have hspace : symbol.kind.space = .code := by
      rcases hkind with hkind | hkind
      · cases hkind
      · simp only [List.mem_cons, List.not_mem_nil, or_false] at hkind
        rcases hkind with hkind | hkind <;> rw [hkind] <;> rfl
    obtain ⟨before, pos, after, hlines, hvalue⟩ := h.exists_mark hmem hspace
    rw [hname] at hlines
    rw [hvalue] at high ⊢
    exact .label hlines (by omega)
  | datum kind => cases kind
  | call kind => cases kind

theorem Assembled.asks_datum (h : Assembled p a o) {place : Nat} {name : String} {field : Bytes}
    (hholds : Holds env s o lib ⟨place, .dataAddress, name⟩ field) :
    Asks p env s o lib .data (.symbol name) field := by
  cases hholds with
  | label kind => cases kind
  | @datum symbol _ found low high =>
    obtain ⟨hmem, hname, hkind⟩ := lookup?_eq_some found
    have hspace : symbol.kind.space = .data := by
      rcases hkind with hkind | hkind
      · cases hkind
      · rw [List.mem_singleton.mp hkind]
        rfl
    obtain ⟨before, d, after, hdata, hd, hvalue⟩ := h.exists_datum hmem hspace
    rw [hvalue] at high ⊢
    rw [← (hd.trans hname : d.name = name)]
    exact .datum hdata (by omega)
  | call kind => cases kind

theorem asks_call {place : Nat} {library routine : String} {field : Bytes} (hname : IsName library)
    (hholds : Holds env s o lib
      ⟨place, .externalCall, Operand.callName library routine⟩ field) :
    Asks p env s o lib .foreign (.call library routine) field := by
  cases hholds with
  | label kind => cases kind
  | datum kind => cases kind
  | call kind divided resolved exported low high listed normal small =>
    rw [splitTarget?_callName hname] at divided
    cases divided
    exact .call resolved exported low high listed normal small

theorem slot_mem_of_cell {q : Placed} {c : Cell} (hc : c ∈ q.cells) : c.slot ∈ q.spec.slots := by
  have hmem : (c.slot, c.operand) ∈ q.pairs := by
    rw [← cellsAt_pairs (q.offset.toNat + 1) q.pairs]
    exact List.mem_map.mpr ⟨c, hc, rfl⟩
  exact (List.of_mem_zip hmem).1

/-- A cell without a relocation is in the library as the encoder wrote it. -/
theorem Assembled.field_eq (h : Assembled p a o) (hlinked : Linked env s o lib) {k : Nat}
    {i : Instruction} {q : Placed} (hq : a.code[k]? = some q)
    (hsound : Sound a.symbols a.mask (wordSize * k) i q) {c : Cell} (hc : c ∈ q.cells)
    (hnone : c.relocation? = none) :
    q.field a.file c.slot c.operand = .ok (slice lib.code c.place c.slot.size) := by
  have hbounds := hsound.mem_cells hc
  rw [h.slice_eq hlinked hq (by omega) (by omega) fun d hd hsome =>
    cells_apart hd hc fun heq => hsome (heq ▸ hnone)]
  exact (h.encoded.word_pieces hq hsound).2.1 c hc

/-- A cell with a relocation holds what the linker wrote for it. -/
theorem Encoded.holds_cell (h : Encoded a o) (hlinked : Linked env s o lib) {q : Placed}
    (hq : q ∈ a.code) {c : Cell} (hc : c ∈ q.cells) {r : Relocation}
    (hr : c.relocation? = some r) :
    Holds env s o lib r (slice lib.code c.place c.slot.size) := by
  obtain ⟨hplace, hwidth⟩ := relocation?_place hr
  have hholds := hlinked.fields r (h.mem_relocations hq hc hr)
  rwa [hplace, hwidth, Int.toNat_natCast] at hholds

/-- **One cell**: its slice of the library is what the operand of the source asks for. -/
theorem Assembled.asks (h : Assembled p a o) (hlinked : Linked env s o lib) {k : Nat}
    {i : Instruction} {q : Placed} (hq : a.code[k]? = some q)
    (hsound : Sound a.symbols a.mask (wordSize * k) i q) {c : Cell} (hc : c ∈ q.cells)
    {operand : Operand} (hwritten : operand.Written)
    (hclass : Classified a.symbols c.slot operand c.operand) :
    Asks p env s o lib c.slot operand (slice lib.code c.place c.slot.size) := by
  have hfinal := h.field_eq hlinked hq hsound hc
  have hfilled : ∀ r, c.relocation? = some r → Holds env s o lib r _ :=
    fun r hr => h.encoded.holds_cell hlinked (List.mem_of_getElem? hq) hc hr
  have hwhole := hsound.whole (slot_mem_of_cell hc)
  obtain ⟨place, slot, meaning⟩ := c
  simp only at hclass hfinal hfilled hwhole ⊢
  cases hclass with
  | register named bank allowed inside =>
    have hfield := hfinal rfl
    rw [registerField_eq q a.file _ _ named inside] at hfield
    rw [← Except.ok.inj hfield]
    exact .register named inside
  | @literal bits signed i fits =>
    obtain ⟨bytes, hpack, hfield, -⟩ :=
      immediateField_eq q a.file (i := ⟨i.value, i.text, bits⟩) hwhole fits
    rw [hfinal rfl] at hfield
    rw [Except.ok.inj hfield]
    exact .literal hpack
  | @constant bits signed name symbol declared fits =>
    obtain ⟨d, hd, rfl, hvalue⟩ := h.accepted.mem_constants declared
    obtain ⟨bytes, hpack, hfield, -⟩ :=
      immediateField_eq q a.file (i := ⟨symbol.value.getD 0, d.name, bits⟩) hwhole fits
    rw [hfinal rfl] at hfield
    rw [Except.ok.inj hfield]
    simp only [hvalue, Option.getD_some] at hpack
    exact .constant hd hpack
  | label declared => exact h.asks_label (hfilled _ rfl)
  | datum declared => exact h.asks_datum (hfilled _ rfl)
  | call => exact asks_call hwritten.1 (hfilled _ rfl)

/-- The slice of a word of the library: opcode, the slices of the cells, and zeros. -/
theorem Assembled.linked_word (h : Assembled p a o) (hlinked : Linked env s o lib) {k : Nat}
    {i : Instruction} {q : Placed} (hq : a.code[k]? = some q)
    (hsound : Sound a.symbols a.mask (wordSize * k) i q) :
    slice lib.code (wordSize * k) wordSize = q.spec.opcode ::
      (q.cells.map fun c => slice lib.code c.place c.slot.size).flatten ++
        List.replicate (wordSize - 1 - q.spec.operandBytes) 0 := by
  obtain ⟨hopcode, -, hzeros⟩ := h.encoded.word_pieces hq hsound
  have hlt := hsound.operandBytes_lt
  have hcell : ∀ c ∈ q.cells, wordSize * k < c.place ∧
      c.place + c.slot.size ≤ wordSize * k + 1 + q.spec.operandBytes := by
    intro c hc
    have := mem_cellsAt hc
    rw [hsound.roomOfSlots_pairs, hsound.offset, Int.toNat_natCast] at this
    omega
  have hfirst : slice lib.code (wordSize * k) 1 = [q.spec.opcode] := by
    rw [← hopcode]
    refine h.slice_eq hlinked hq (Nat.le_refl _) (by omega) fun c hc _ => ?_
    have := hcell c hc
    omega
  have hlast : slice lib.code (wordSize * k + 1 + q.spec.operandBytes)
      (wordSize - 1 - q.spec.operandBytes) =
        List.replicate (wordSize - 1 - q.spec.operandBytes) 0 := by
    rw [← hzeros]
    refine h.slice_eq hlinked hq (by omega) (by omega) fun c hc _ => ?_
    have := hcell c hc
    omega
  have hmiddle : slice lib.code (wordSize * k + 1) q.spec.operandBytes =
      (q.cells.map fun c => slice lib.code c.place c.slot.size).flatten := by
    rw [Placed.cells, hsound.offset, Int.toNat_natCast, ← slice_cellsAt, hsound.roomOfSlots_pairs]
  calc slice lib.code (wordSize * k) wordSize
      = slice lib.code (wordSize * k)
          (1 + (q.spec.operandBytes + (wordSize - 1 - q.spec.operandBytes))) := by
        congr 1
        omega
    _ = _ := by
        rw [slice_split, slice_split, hfirst, hmiddle, hlast]
        simp

end Link

end Word

/-- **From source to library.** The code has one word for every instruction of the source, in
order. The word is the opcode of the mnemonic, then for every slot what the operand of the source
asks for, then zeros. As every name is declared once, an operand asks for one thing only. -/
theorem linked_code_of_source {text : String} {file file' name : Option String} {p : Program}
    {extra : List String} {a : Analysis} {o : Object} {env : Environment}
    {s : ContentId.Strategy} {lib : Library} (hparse : parse names text file = .ok p)
    (hanalysis : ofProgram p extra file' = .ok a) (hok : a.ok = true)
    (hencode : a.encode name = .ok o) (hlink : linkObject o env s = .ok lib) :
    DeclaredOnce p ∧ lib.code.length = wordSize * p.instructions.length ∧
      ∀ k i, p.instructions[k]? = some i → ∃ spec fields,
        Spec.named? i.mnemonic = some spec ∧ i.operands.length = spec.slots.length ∧
        List.Forall₂ (fun x field => Asks p env s o lib x.2 x.1 field)
          (i.operands.zip spec.slots) fields ∧
        slice lib.code (wordSize * k) wordSize = spec.opcode :: fields.flatten ++
          List.replicate (wordSize - 1 - spec.operandBytes) 0 := by
  have h := assembled_of_encode hparse hanalysis hok hencode
  have hlinked := linkObject_linked h.relocations_pairwise hlink
  refine ⟨h.accepted.declaredOnce, ?_, fun k i hi => ?_⟩
  · rw [hlinked.length_code, h.encoded.length_code, ← h.accepted.code.length_eq,
      List.length_zipIdx]
  · obtain ⟨q, hq, hsound⟩ := h.accepted.sound_at hi
    refine ⟨q.spec, _, hsound.spec, hsound.count, ?_, h.linked_word hlinked hq hsound⟩
    have hpairs := hsound.pairs
    rw [← cellsAt_pairs (q.offset.toNat + 1) q.pairs, List.forall₂_map_right_iff] at hpairs
    rw [List.forall₂_map_right_iff]
    refine Steps.forall₂_imp_mem hpairs fun x hx c hc ⟨hslot, hclass⟩ => ?_
    have hwritten : x.1.Written :=
      h.written.instruction (List.mem_of_getElem? hi) x.1 (List.of_mem_zip hx).1
    rw [← (hslot : c.slot = x.2)] at hclass ⊢
    exact h.asks hlinked hq hsound hc hwritten hclass

/-- A program with registers, a literal below zero, a constant, data and a jump ahead. -/
def counterSource : String :=
  ".CONST\nLIMIT = 0x10\n.DATA\nmsg = \"hola\"\nkey = u16 7\n.MAIN\nput a16[3], -5\n" ++
  "inc a16[3], LIMIT\njmp done\nputd s16[0], key\ndone: ret\n"

theorem linked_code_of_counter : ∃ p a o lib,
    parse nameless counterSource none = .ok p ∧ ofProgram p [] none = .ok a ∧ a.ok = true ∧
    a.encode none = .ok o ∧ linkObject o {} .sha256 = .ok lib ∧ DeclaredOnce p ∧
    lib.code.length = wordSize * p.instructions.length ∧
    ∀ k i, p.instructions[k]? = some i → ∃ spec fields,
      Spec.named? i.mnemonic = some spec ∧ i.operands.length = spec.slots.length ∧
      List.Forall₂ (fun x field => Asks p {} .sha256 o lib x.2 x.1 field)
        (i.operands.zip spec.slots) fields ∧
      slice lib.code (wordSize * k) wordSize = spec.opcode :: fields.flatten ++
        List.replicate (wordSize - 1 - spec.operandBytes) 0 := by
  obtain ⟨o, ho⟩ := Option.isSome_iff_exists.mp
    (by decide +kernel : (objectOf? counterSource).isSome)
  obtain ⟨p, a, hparse, hanalysis, hok, hencode⟩ := stages_of_objectOf? ho
  have h := assembled_of_encode hparse hanalysis hok hencode
  obtain ⟨lib, hlib⟩ : ∃ lib, linkObject o {} .sha256 = .ok lib :=
    h.exists_link List.mem_cons_self h.wellFormed.mask.diff_full
      (no_call_of_objectOf? ho (by decide +kernel))
  exact ⟨p, a, o, lib, hparse, hanalysis, hok, hencode, hlib,
    linked_code_of_source hparse hanalysis hok hencode hlib⟩

end AluVM.Analysis
