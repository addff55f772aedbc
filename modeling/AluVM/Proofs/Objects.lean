import AluVM.Assembly
import AluVM.Proofs.Encoding
import AluVM.Proofs.Linking
import Mathlib.Data.List.TakeDrop

/-! # The symbols and relocations of an assembled object

The symbols of an object are the labels, routines and data of its program. A label or routine has
the offset of its declaration among the instructions (`Assembled.exists_mark`), a datum that of
its declaration among the data (`Assembled.exists_datum`). Every field lies in the code
(`Assembled.inside`) and asks for something that is there, libraries aside
(`Assembled.exists_target`). -/

namespace AluVM.Analysis

open Syntax

variable {names : CharacterNames}

/-- An object with the program that it was assembled from. -/
structure Assembled (p : Program) (a : Analysis) (o : Object) : Prop where
  written : p.Written
  accepted : Accepted p a
  encoded : Encoded a o

/-- What the stages of the assembler give together. -/
theorem assembled_of_encode {text : String} {file file' name : Option String} {p : Program}
    {extra : List String} {a : Analysis} {o : Object} (hparse : parse names text file = .ok p)
    (hanalysis : ofProgram p extra file' = .ok a) (hok : a.ok = true)
    (hencode : a.encode name = .ok o) : Assembled p a o := by
  have hwritten := parse_written hparse
  have haccepted := ofProgram_accepted hanalysis hok
  obtain ⟨o', ho', -, hencoded⟩ := exists_encode hwritten haccepted hok name
  cases ho'.symm.trans hencode
  exact ⟨hwritten, haccepted, hencoded⟩

/-- The object is the encoding of an accepted program, whatever names characters have. -/
def FromSource (o : Object) : Prop :=
  ∃ (names : CharacterNames) (text : String) (file file' name : Option String) (p : Program)
    (extra : List String) (a : Analysis), parse names text file = .ok p ∧
      ofProgram p extra file' = .ok a ∧ a.ok = true ∧ a.encode name = .ok o

theorem FromSource.assembled {o : Object} (h : FromSource o) : ∃ p a, Assembled p a o := by
  obtain ⟨names, text, file, file', name, p, extra, a, hparse, hanalysis, hok, hencode⟩ := h
  exact ⟨p, a, assembled_of_encode hparse hanalysis hok hencode⟩

/-- The stages of the assembler on a text that it makes an object of. -/
theorem stages_of_ofText {text : String} {file : Option String} {extra : List String}
    {assembly : Assembly} {o : Object} (h : Assembly.ofText names text file extra = .ok assembly)
    (ho : assembly.object = some o) :
    ∃ p a, parse names text file = .ok p ∧ ofProgram p extra file = .ok a ∧ a.ok = true ∧
      a.encode none = .ok o := by
  unfold Assembly.ofText at h
  split at h
  · rename_i e he
    unfold Assembly.ofSourceError at h
    split at h <;> cases h <;> cases ho
  · rename_i p hp
    split at h
    · cases h
    · rename_i a ha
      unfold Assembly.ofAnalysis at h
      split_ifs at h with hok
      · split at h
        · rename_i o' ho'
          cases h
          cases ho
          exact ⟨p, a, hp, ha, hok, ho'⟩
        · cases h
          cases ho
        · cases h
      · cases h
        cases ho

/-- The object of a text, if it has no errors and names no characters. -/
def objectOf? (text : String) : Option Object :=
  (Assembly.ofText nameless text).toOption.bind (·.object)

theorem stages_of_objectOf? {text : String} {o : Object} (h : objectOf? text = some o) :
    ∃ p a, parse nameless text none = .ok p ∧ ofProgram p [] none = .ok a ∧ a.ok = true ∧
      a.encode none = .ok o := by
  obtain ⟨assembly, hassembly, ho⟩ := Option.bind_eq_some_iff.mp h
  rcases htext : Assembly.ofText nameless text with e | assembly'
  · simp [htext, Except.toOption] at hassembly
  · simp only [htext, Except.toOption, Option.some.injEq] at hassembly
    subst hassembly
    exact stages_of_ofText htext ho

theorem fromSource_of_objectOf? {text : String} {o : Object} (h : objectOf? text = some o) :
    FromSource o := by
  obtain ⟨p, a, hparse, hanalysis, hok, hencode⟩ := stages_of_objectOf? h
  exact ⟨nameless, text, none, none, none, p, [], a, hparse, hanalysis, hok, hencode⟩

/-- The bytes that a declaration of data takes. -/
def datumRoom (d : DataDecl) : Nat := (measured d).1

/-! ### Kinds of symbols -/

/-- The marks among the lines of a program are its routines and labels. -/
theorem mark_of_mem_lines {p : Program} {kind : SymbolKind} {name : String} {pos : Position}
    (h : CodeLine.mark kind name pos ∈ p.lines) :
    (kind = .exportedLabel ∧ ∃ r ∈ p.routines, r.name = some name) ∨
      (kind = .localLabel ∧ ∃ r ∈ p.routines, Node.label name pos ∈ r.body) := by
  obtain ⟨r, hr, hline⟩ := List.mem_flatMap.mp h
  rcases List.mem_cons.mp hline with hline | hline
  · unfold Routine.opening at hline
    split at hline
    · rename_i hname
      obtain ⟨rfl, rfl, -⟩ := CodeLine.mark.inj hline
      exact Or.inl ⟨rfl, r, hr, hname⟩
    · cases hline
  · obtain ⟨node, hnode, hline⟩ := List.mem_map.mp hline
    cases node with
    | label name' pos' =>
      obtain ⟨rfl, rfl, rfl⟩ := CodeLine.mark.inj hline
      exact Or.inr ⟨rfl, r, hr, hnode⟩
    | instruction i => cases hline

theorem marks_kind {offset : Nat} {p : Program} {s : Symbol} (h : s ∈ marks offset p.lines) :
    s.kind = .localLabel ∨ s.kind = .exportedLabel := by
  obtain ⟨before, pos, after, hlines, -⟩ := mem_marks h
  have hmem : CodeLine.mark s.kind s.name pos ∈ p.lines := by rw [hlines]; simp
  rcases mark_of_mem_lines hmem with ⟨hkind, -⟩ | ⟨hkind, -⟩
  · exact Or.inr hkind
  · exact Or.inl hkind

section Symbols
variable {p : Program} {a : Analysis} {o : Object}

/-- A symbol of an accepted program is a constant, a datum, a mark of the code or an import. -/
theorem Accepted.mem_symbols (h : Accepted p a) {s : Symbol} (hs : s ∈ a.symbols.toList) :
    (∃ d ∈ p.constants, s = constantSymbol d) ∨
      (∃ q ∈ placements 0 (sized p), s = q.symbol) ∨ s ∈ marks 0 p.lines ∨ IsImport s := by
  obtain ⟨imports, hsymbols, himports⟩ := h.symbols
  simp only [hsymbols, List.mem_append, List.mem_map] at hs
  rcases hs with ((⟨d, hd, rfl⟩ | ⟨q, hq, rfl⟩) | hmark) | himport
  · exact Or.inl ⟨d, hd, rfl⟩
  · exact Or.inr (Or.inl ⟨q, hq, rfl⟩)
  · exact Or.inr (Or.inr (Or.inl hmark))
  · exact Or.inr (Or.inr (Or.inr (himports s himport)))

theorem Accepted.mem_constants (h : Accepted p a) {name : String} {s : Symbol}
    (hs : a.symbols.get? .const name = some s) :
    ∃ d ∈ p.constants, d.name = name ∧ s.value = some d.value.value := by
  obtain ⟨hmem, hspace, hname⟩ := SymbolTable.mem_of_get? hs
  rcases h.mem_symbols (List.mem_reverse.mpr hmem) with ⟨d, hd, rfl⟩ | ⟨q, -, rfl⟩ | hmark | himport
  · exact ⟨d, hd, hname, rfl⟩
  · cases hspace
  · rcases marks_kind hmark with hk | hk <;> rw [hk] at hspace <;> cases hspace
  · obtain ⟨_, _, _, rfl⟩ := himport
    cases hspace

theorem Accepted.mark_of_code (h : Accepted p a) {s : Symbol} (hs : s ∈ a.symbols.toList)
    (hspace : s.kind.space = .code) : s ∈ marks 0 p.lines := by
  rcases h.mem_symbols hs with ⟨d, -, rfl⟩ | ⟨q, -, rfl⟩ | hmark | ⟨_, _, _, rfl⟩
  · cases hspace
  · cases hspace
  · exact hmark
  · cases hspace

theorem Accepted.datum_of_data (h : Accepted p a) {s : Symbol} (hs : s ∈ a.symbols.toList)
    (hspace : s.kind.space = .data) : ∃ q ∈ placements 0 (sized p), s = q.symbol := by
  rcases h.mem_symbols hs with ⟨d, -, rfl⟩ | hq | hmark | ⟨_, _, _, rfl⟩
  · cases hspace
  · exact hq
  · rcases marks_kind hmark with hk | hk <;> rw [hk] at hspace <;> cases hspace
  · cases hspace

/-- **Every name is declared once** among the constants, among the data, and among the routines
and labels. -/
structure DeclaredOnce (p : Program) : Prop where
  constants : (p.constants.map (·.name)).Nodup
  data : (p.data.map (·.name)).Nodup
  marks : (p.lines.filterMap CodeLine.name?).Nodup

/-- Symbols of one namespace that are apart have different names. -/
theorem nodup_names {ss : List Symbol} (space : Namespace)
    (h : ss.Pairwise SymbolTable.Apart) (hspace : ∀ s ∈ ss, s.kind.space = space) :
    (ss.map (·.name)).Nodup := by
  refine List.pairwise_map.mpr (h.imp_of_mem fun hs ht hapart hname => hapart ⟨?_, hname⟩)
  rw [hspace _ hs, hspace _ ht]

theorem Accepted.declaredOnce (h : Accepted p a) : DeclaredOnce p := by
  obtain ⟨imports, hsymbols, -⟩ := h.symbols
  have hapart : a.symbols.toList.Pairwise SymbolTable.Apart :=
    List.pairwise_reverse.mpr (h.distinct.imp fun hst => Std.Symm.symm _ _ hst)
  rw [hsymbols] at hapart
  obtain ⟨hapart, -, -⟩ := List.pairwise_append.mp hapart
  obtain ⟨hapart, hmarks, -⟩ := List.pairwise_append.mp hapart
  obtain ⟨hconstants, hdata, -⟩ := List.pairwise_append.mp hapart
  refine ⟨?_, ?_, ?_⟩
  · have := nodup_names .const hconstants (by simp [constantSymbol, SymbolKind.space])
    rwa [List.map_map] at this
  · have := nodup_names .data hdata (by simp [PlacedDatum.symbol, SymbolKind.space])
    rw [List.map_map] at this
    have hnames : ((placements 0 (sized p)).map (·.decl)).map (·.name) = p.data.map (·.name) := by
      rw [map_decl_placements, sized, List.map_map]
      simp
    rw [← hnames, List.map_map]
    exact this
  · rw [← map_name_marks 0]
    refine nodup_names .code hmarks fun s hs => ?_
    rcases marks_kind hs with hk | hk <;> rw [hk] <;> rfl

/-! ### Symbols of objects -/

theorem mem_objectSymbols {t : SymbolTable} {kinds : List SymbolKind} {x : ObjectSymbol} :
    x ∈ objectSymbols (t.ofKinds kinds) ↔
      ∃ s ∈ t.toList, s.kind ∈ kinds ∧ x = ⟨s.name, s.kind, s.value.getD 0⟩ := by
  simp only [objectSymbols, SymbolTable.ofKinds, List.mem_map, List.mem_filter, decide_eq_true_eq,
    and_assoc, eq_comm (b := x)]

theorem Encoded.mem_exports (h : Encoded a o) {x : ObjectSymbol} : x ∈ o.exports ↔
    ∃ s ∈ a.symbols.toList, s.kind = .exportedLabel ∧ x = ⟨s.name, s.kind, s.value.getD 0⟩ := by
  simp [h.exports, mem_objectSymbols]

theorem Encoded.mem_symbols (h : Encoded a o) {x : ObjectSymbol} : x ∈ o.symbols ↔
    ∃ s ∈ a.symbols.toList, (s.kind = .localLabel ∨ s.kind = .dataSymbol) ∧
      x = ⟨s.name, s.kind, s.value.getD 0⟩ := by
  simp [h.symbols, mem_objectSymbols]

/-- A symbol of an object is a label, routine or datum of its program. -/
theorem Encoded.mem_all (h : Encoded a o) {x : ObjectSymbol} : x ∈ o.exports ++ o.symbols ↔
    ∃ s ∈ a.symbols.toList, (s.kind.space = .code ∨ s.kind.space = .data) ∧
      x = ⟨s.name, s.kind, s.value.getD 0⟩ := by
  rw [List.mem_append, h.mem_exports, h.mem_symbols]
  constructor
  · rintro (⟨s, hs, hkind, rfl⟩ | ⟨s, hs, hkind, rfl⟩)
    · exact ⟨s, hs, by simp [hkind, SymbolKind.space], rfl⟩
    · exact ⟨s, hs, by rcases hkind with hk | hk <;> simp [hk, SymbolKind.space], rfl⟩
  · rintro ⟨s, hs, hspace, rfl⟩
    rcases hk : s.kind <;> simp only [hk, SymbolKind.space] at hspace
    · exact Or.inr ⟨s, hs, Or.inl hk, by rw [hk]⟩
    · exact Or.inl ⟨s, hs, hk, by rw [hk]⟩
    · simp at hspace
    · exact Or.inr ⟨s, hs, Or.inr hk, by rw [hk]⟩
    · simp at hspace

/-- **Labels and routines** are at the size of a word times the number of instructions before
them. -/
theorem Assembled.exists_mark (h : Assembled p a o) {x : ObjectSymbol}
    (hx : x ∈ o.exports ++ o.symbols) (hkind : x.kind.space = .code) :
    ∃ before pos after, p.lines = before ++ .mark x.kind x.name pos :: after ∧
      x.value = (wordSize * (wordsOf before).length : Nat) := by
  obtain ⟨s, hs, -, rfl⟩ := h.encoded.mem_all.mp hx
  obtain ⟨before, pos, after, hlines, hvalue⟩ := mem_marks (h.accepted.mark_of_code hs hkind)
  rw [Nat.zero_add] at hvalue
  exact ⟨before, pos, after, hlines, by simp [hvalue]⟩

/-- **Data** are at the sum of the rooms of the declarations before them. -/
theorem Assembled.exists_datum (h : Assembled p a o) {x : ObjectSymbol}
    (hx : x ∈ o.exports ++ o.symbols) (hkind : x.kind.space = .data) :
    ∃ before d after, p.data = before ++ d :: after ∧ d.name = x.name ∧
      x.value = ((before.map datumRoom).sum : Nat) := by
  obtain ⟨s, hs, -, rfl⟩ := h.encoded.mem_all.mp hx
  obtain ⟨q, hq, rfl⟩ := h.accepted.datum_of_data hs hkind
  obtain ⟨before, causes, after, hsplit, hoffset⟩ := mem_placements hq
  obtain ⟨before', rest, hdata, rfl, hrest⟩ := List.map_eq_append_iff.mp hsplit
  obtain ⟨d, after', rfl, hd, -⟩ := List.map_eq_cons_iff.mp hrest
  refine ⟨before', d, after', hdata, congrArg (·.name) (Prod.mk.inj hd).1, ?_⟩
  have hroom : roomOf (before'.map fun d => (d, measured d)) = (before'.map datumRoom).sum := by
    rw [roomOf, List.map_map]
    rfl
  rw [Nat.zero_add, hroom] at hoffset
  simp [PlacedDatum.symbol, hoffset]

theorem lookup?_eq_some {name : String} {kinds : List SymbolKind} {x : ObjectSymbol}
    (h : o.lookup? name kinds = some x) :
    x ∈ o.exports ++ o.symbols ∧ x.name = name ∧ (kinds = [] ∨ x.kind ∈ kinds) := by
  refine ⟨List.mem_of_find?_eq_some h, ?_⟩
  simpa using List.find?_some h

theorem Assembled.isName (h : Assembled p a o) {x : ObjectSymbol}
    (hx : x ∈ o.exports ++ o.symbols) :
    IsName x.name := by
  obtain ⟨s, -, hspace, hxs⟩ := h.encoded.mem_all.mp hx
  rw [show s.kind = x.kind by rw [hxs]] at hspace
  rcases hspace with hspace | hspace
  · obtain ⟨before, pos, after, hlines, -⟩ := h.exists_mark hx hspace
    have hmem : CodeLine.mark x.kind x.name pos ∈ p.lines := by rw [hlines]; simp
    rcases mark_of_mem_lines hmem with ⟨-, r, hr, hname⟩ | ⟨-, r, hr, hnode⟩
    · exact (h.written.routine hr).1 x.name hname
    · exact (h.written.routine hr).2 _ hnode
  · obtain ⟨before, d, after, hdata, hname, -⟩ := h.exists_datum hx hspace
    rw [← hname]
    exact (h.written.data (by rw [hdata]; simp)).1

/-- A name stands for one symbol in each namespace. -/
theorem Assembled.eq_of_name (h : Assembled p a o) {x y : ObjectSymbol}
    (hx : x ∈ o.exports ++ o.symbols) (hy : y ∈ o.exports ++ o.symbols)
    (hspace : x.kind.space = y.kind.space) (hname : x.name = y.name) : x = y := by
  obtain ⟨s, hs, -, rfl⟩ := h.encoded.mem_all.mp hx
  obtain ⟨t, ht, -, rfl⟩ := h.encoded.mem_all.mp hy
  rw [h.accepted.distinct.eq_of_mem (List.mem_reverse.mp hs) (List.mem_reverse.mp ht) hspace hname]

theorem Assembled.reach (h : Assembled p a o) {x : ObjectSymbol} (hx : x ∈ o.exports ++ o.symbols) :
    0 ≤ x.value ∧ x.value ≤ maxOffset := by
  obtain ⟨s, hs, hspace, hxs⟩ := h.encoded.mem_all.mp hx
  have hlow : 0 ≤ x.value := by
    rw [show s.kind = x.kind by rw [hxs]] at hspace
    rcases hspace with hspace | hspace
    · obtain ⟨_, _, _, -, hvalue⟩ := h.exists_mark hx hspace
      omega
    · obtain ⟨_, _, _, -, -, hvalue⟩ := h.exists_datum hx hspace
      omega
  refine ⟨hlow, ?_⟩
  have hreach := h.accepted.reach s hs (by rintro hk; simp [hk, SymbolKind.space] at hspace)
  rw [hxs]
  rcases hv : s.value with _ | v
  · simp
  · exact hreach v hv

/-! ### Words of objects -/

theorem Accepted.sound_at (h : Accepted p a) {k : Nat} {i : Instruction}
    (hi : p.instructions[k]? = some i) :
    ∃ q, a.code[k]? = some q ∧ Sound a.symbols a.mask (wordSize * k) i q := by
  have hzip : p.instructions.zipIdx[k]? = some (i, k) := by
    rw [List.getElem?_zipIdx, hi, Nat.zero_add]
    rfl
  exact Steps.getElem?_of_forall₂ h.code hzip

theorem Accepted.sound_of_mem (h : Accepted p a) {q : Placed} (hq : q ∈ a.code) :
    ∃ k i, a.code[k]? = some q ∧ i ∈ p.instructions ∧
      Sound a.symbols a.mask (wordSize * k) i q := by
  obtain ⟨k, hk⟩ := List.getElem?_of_mem hq
  obtain ⟨⟨i, k'⟩, hzip, hsound⟩ := Steps.getElem?_of_forall₂ h.code.flip hk
  rw [List.getElem?_zipIdx] at hzip
  obtain ⟨i', hi', heq⟩ := Option.map_eq_some_iff.mp hzip
  cases heq
  exact ⟨k, i, hk, List.mem_of_getElem? hi', by simpa using hsound⟩

theorem Assembled.length_code (h : Assembled p a o) : o.code.length ≤ maxSegment := by
  have hcount : a.code.length = p.instructions.length := by
    simpa using h.accepted.code.length_eq.symm
  rw [h.encoded.length_code, hcount, ← h.accepted.codeSize]
  exact h.accepted.codeSize_le

theorem Assembled.length_data (h : Assembled p a o) :
    o.data.length = (p.data.map datumRoom).sum ∧ o.data.length ≤ maxSegment := by
  have hlen : o.data.length = roomOf (sized p) := by
    rw [h.encoded.length_data, h.accepted.data, sum_size_placements]
  refine ⟨?_, hlen ▸ h.accepted.room_le⟩
  rw [hlen, roomOf, sized, List.map_map]
  rfl

/-! ### Relocations of objects -/

theorem Assembled.relocations_pairwise (h : Assembled p a o) :
    o.relocations.Pairwise Relocation.Before := by
  rw [h.encoded.relocations]
  exact Analysis.relocations_pairwise (cells_pairwise h.accepted.code).1

/-- A relocation is that of a cell of a word, which holds an operand of the source. -/
theorem Assembled.exists_cell (h : Assembled p a o) {r : Relocation} (hr : r ∈ o.relocations) :
    ∃ (k : Nat) (c : Cell) (i : Instruction) (spec : Spec) (operand : Operand),
      c.relocation? = some r ∧ k < a.code.length ∧ wordSize * k < c.place ∧
      c.place + c.slot.size ≤ wordSize * k + wordSize ∧ i ∈ p.instructions ∧
      Spec.named? i.mnemonic = some spec ∧ i.operands.length = spec.slots.length ∧
      (operand, c.slot) ∈ i.operands.zip spec.slots ∧
      Classified a.symbols c.slot operand c.operand := by
  rw [h.encoded.relocations] at hr
  obtain ⟨c, hc, hrc⟩ := List.mem_filterMap.mp hr
  obtain ⟨q, hq, hc⟩ := List.mem_flatMap.mp hc
  obtain ⟨k, i, hk, hi, hsound⟩ := h.accepted.sound_of_mem hq
  have hpair : (c.slot, c.operand) ∈ q.pairs := by
    rw [← cellsAt_pairs (q.offset.toNat + 1) q.pairs]
    exact List.mem_map.mpr ⟨c, hc, rfl⟩
  obtain ⟨x, hx, hslot, hclass⟩ := Steps.exists_mem_left hsound.pairs _ hpair
  obtain ⟨hlow, hhigh⟩ := hsound.mem_cells hc
  refine ⟨k, c, i, q.spec, x.1, hrc, (List.getElem?_eq_some_iff.mp hk).1, hlow, hhigh, hi,
    hsound.spec, hsound.count, ?_⟩
  rw [show c.slot = x.2 from hslot]
  exact ⟨hx, hclass⟩

theorem Assembled.inside (h : Assembled p a o) {r : Relocation} (hr : r ∈ o.relocations) :
    1 ≤ r.offset ∧ r.offset + r.kind.width ≤ o.code.length := by
  obtain ⟨k, c, -, -, -, hrc, hk, hlow, hhigh, -⟩ := h.exists_cell hr
  obtain ⟨hoffset, hwidth⟩ := relocation?_place hrc
  rw [h.encoded.length_code, hoffset, hwidth]
  have hend : wordSize * k + wordSize ≤ wordSize * a.code.length := Nat.mul_le_mul_left wordSize hk
  omega

/-- **What the fields of an object ask for**: a label or routine of the object, a datum of the
object, or a routine of a library. -/
theorem Assembled.exists_target (h : Assembled p a o) {r : Relocation} (hr : r ∈ o.relocations) :
    (r.kind = .localOffset ∧
      ∃ x ∈ o.exports ++ o.symbols, x.name = r.target ∧ x.kind.space = .code) ∨
    (r.kind = .dataAddress ∧
      ∃ x ∈ o.exports ++ o.symbols, x.name = r.target ∧ x.kind.space = .data) ∨
    (r.kind = .externalCall ∧ ∃ library routine, IsName library ∧
      r.target = Operand.callName library routine ∧
      ∃ i ∈ p.instructions, Operand.call library routine ∈ i.operands) := by
  obtain ⟨k, ⟨place, slot, meaning⟩, i, spec, operand, hrc, -, -, -, hi, -, -, hpair, hclass⟩ :=
    h.exists_cell hr
  have hmem := (List.of_mem_zip hpair).1
  simp only at hclass
  cases hclass with
  | register => cases hrc
  | literal => cases hrc
  | constant => cases hrc
  | label declared =>
    cases hrc
    obtain ⟨hmem, hspace, hname⟩ := SymbolTable.mem_of_get? declared
    exact Or.inl ⟨rfl, _, h.encoded.mem_all.mpr
      ⟨_, List.mem_reverse.mpr hmem, Or.inl hspace, rfl⟩, hname, hspace⟩
  | datum declared =>
    cases hrc
    obtain ⟨hmem, hspace, hname⟩ := SymbolTable.mem_of_get? declared
    exact Or.inr (Or.inl ⟨rfl, _, h.encoded.mem_all.mpr
      ⟨_, List.mem_reverse.mpr hmem, Or.inr hspace, rfl⟩, hname, hspace⟩)
  | call =>
    cases hrc
    have hwritten := h.written.instruction hi _ hmem
    exact Or.inr (Or.inr ⟨rfl, _, _, hwritten.1, rfl, i, hi, hmem⟩)

/-- Whether no instruction of a program calls a library. -/
def callFree (p : Program) : Bool :=
  p.instructions.all fun i => i.operands.all fun
    | .call _ _ => false
    | _ => true

theorem Assembled.no_call (h : Assembled p a o) (hfree : callFree p = true) :
    ∀ r ∈ o.relocations, r.kind ≠ .externalCall := by
  intro r hr hkind
  rcases h.exists_target hr with ⟨hk, -⟩ | ⟨hk, -⟩ | ⟨-, library, routine, -, -, i, hi, hmem⟩
  · cases hk.symm.trans hkind
  · cases hk.symm.trans hkind
  · cases List.all_eq_true.mp (List.all_eq_true.mp hfree i hi) _ hmem

theorem no_call_of_objectOf? {text : String} {o : Object} (h : objectOf? text = some o)
    (hfree : (parse nameless text none).toOption.all callFree = true) :
    ∀ r ∈ o.relocations, r.kind ≠ .externalCall := by
  obtain ⟨p, a, hparse, hanalysis, hok, hencode⟩ := stages_of_objectOf? h
  rw [hparse] at hfree
  exact (assembled_of_encode hparse hanalysis hok hencode).no_call hfree

end Symbols

/-- The target of a call names the library and the routine, as a name has no dot. -/
theorem splitTarget?_callName {library routine : String} (h : IsName library) :
    Linker.splitTarget? (Operand.callName library routine) = some (library, routine) :=
  Linker.splitTarget?_eq_some.mpr ⟨rfl, fun hdot => h.not_dot hdot⟩

end AluVM.Analysis
