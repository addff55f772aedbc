import AluVM.Proofs.DeclaredItems
import AluVM.Proofs.Disassembly
import AluVM.Proofs.Objects

/-! # The values in the data segment

The data of a program lie one behind the other in the order of the source, each from the value of
its symbol on (`symbols_of_blocks`), and what lies there is what the declaration says
(`DataDecl.Stored`): numbers that are read back from the chunks of their width, the pairs of digits
of hexadecimal texts, or the bytes of a string (`datumBytes_stored`). -/

namespace AluVM

open Syntax (isHexDigit)

variable {names : Syntax.CharacterNames}

/-! ### Hexadecimal digits -/

namespace Numeral

/-- A digit in lower case is the one that its value is written with. -/
theorem hexDigit_written {c : Char} (h : isHexDigit c = true) :
    Bytes.hexValue? c = some (digitValue c) ∧ digitValue c < 16 ∧
      Nat.digitChar (digitValue c) = c.toLower ∧ digitValue c.toLower = digitValue c := by
  refine forall_isHexDigit h ?_
  decide +kernel

/-- Only a text that starts with a mark of the base is a run of hexadecimal digits after it. -/
theorem Denotes.hexadecimal {w digits : List Char} {v : Int} (h : Denotes w v)
    (hdigits : Text.lowerChars (w.filter (· ≠ '_')) = '0' :: 'x' :: digits) :
    ∃ mark run, w = '0' :: mark :: run ∧ (mark = 'x' ∨ mark = 'X') ∧
      (∀ c ∈ run.filter (· ≠ '_'), isHexDigit c = true) ∧
      digits = (run.filter (· ≠ '_')).map Char.toLower ∧
      v = ofDigits 16 ((run.filter (· ≠ '_')).map digitValue) := by
  have hfilter : ∀ {isDigit : Char → Bool} {run : List Char}, run ∈ Syntax.Lexeme.digits isDigit →
      ∀ c ∈ run.filter (· ≠ '_'), isDigit c = true := by
    intro isDigit run hrun c hc
    obtain ⟨hc, hne⟩ := List.mem_filter.mp hc
    exact (Syntax.digits_all hrun c hc).resolve_right (by simpa using hne)
  cases h with
  | plus h => simp [Text.lowerChars, Text.lowerChar] at hdigits
  | minus h => simp [Text.lowerChars, Text.lowerChar] at hdigits
  | unsigned h =>
    cases h with
    | decimal hrun _ =>
      -- There is no `x` in a decimal number.
      have hhex : ∀ c ∈ w.filter (· ≠ '_'), isHexDigit c = true :=
        fun c hc => of_decimal.hex (hfilter hrun c hc)
      have hx := (Analysis.lowerChars_hexDigits hhex).2 'x' (by rw [hdigits]; simp)
      exact absurd hx (by decide)
    | @marked _ _ _ mark run hmarks hm hrun =>
      cases hmarks with
      | binary =>
        simp only [Bool.or_eq_true, decide_eq_true_eq] at hm
        rcases hm with rfl | rfl <;> simp [Text.lowerChars, Text.lowerChar] at hdigits
      | octal =>
        simp only [Bool.or_eq_true, decide_eq_true_eq] at hm
        rcases hm with rfl | rfl <;> simp [Text.lowerChars, Text.lowerChar] at hdigits
      | hexadecimal =>
        simp only [Bool.or_eq_true, decide_eq_true_eq] at hm
        have hlower : Text.lowerChars (('0' :: mark :: run).filter (· ≠ '_')) =
            '0' :: 'x' :: Text.lowerChars (run.filter (· ≠ '_')) := by
          rcases hm with rfl | rfl <;> rfl
        rw [hlower, List.cons.injEq, List.cons.injEq] at hdigits
        refine ⟨mark, run, rfl, hm, hfilter hrun, ?_, rfl⟩
        rw [← hdigits.2.2, Text.lowerChars, List.map_eq_flatMap]
        exact List.flatMap_congr fun c hc => (isHexDigit_spec (hfilter hrun c hc)).1

end Numeral

namespace Bytes

/-- Pieces of one size are found again in their concatenation. -/
theorem chunks_flatten {α : Type} {size : Nat} {parts : List (List α)}
    (h : ∀ x ∈ parts, x.length = size) : chunks size parts.length parts.flatten = parts := by
  induction parts with
  | nil => rfl
  | cons x parts ih =>
    obtain ⟨hx, hparts⟩ := List.forall_mem_cons.mp h
    rw [List.length_cons, List.flatten_cons, chunks, List.take_left' hx, List.drop_left' hx,
      ih hparts]

/-- The bytes that digits denote are written with these digits in lower case. -/
theorem ofHexFrom_eq_some {done bytes : Bytes} {digits : List Char}
    (hall : ∀ c ∈ digits, isHexDigit c = true) (h : ofHexFrom done digits = some bytes) :
    done.reverse.flatMap hexOfByte ++ digits.map Char.toLower = bytes.flatMap hexOfByte := by
  fun_induction ofHexFrom done digits with
  | case1 done =>
    cases h
    simp
  | case2 done c cs hblank ih =>
    have hhex := hall c List.mem_cons_self
    rw [isAsciiBlank_of_hexValue? (by rw [← isHexDigit_eq]; exact hhex)] at hblank
    cases hblank
  | case3 => cases h
  | case4 done c hblank d ds high low hlow hhigh ih =>
    obtain ⟨hc, hds⟩ := List.forall_mem_cons.mp hall
    obtain ⟨hd, hds⟩ := List.forall_mem_cons.mp hds
    obtain ⟨hcvalue, hclt, hcwritten, -⟩ := Numeral.hexDigit_written hc
    obtain ⟨hdvalue, hdlt, hdwritten, -⟩ := Numeral.hexDigit_written hd
    cases hcvalue.symm.trans hhigh
    cases hdvalue.symm.trans hlow
    have hbyte : hexOfByte (UInt8.ofNat (16 * Numeral.digitValue c + Numeral.digitValue d)) =
        [c.toLower, d.toLower] := by
      have hvalue : (16 * Numeral.digitValue c + Numeral.digitValue d) % 256 =
          16 * Numeral.digitValue c + Numeral.digitValue d := by omega
      rw [hexOfByte, UInt8.toNat_ofNat', hvalue, ← hcwritten, ← hdwritten]
      congr 1
      · congr 1
        omega
      · congr 2
        omega
    rw [← ih hds h]
    simp only [List.reverse_cons, List.flatMap_append, List.flatMap_singleton, hbyte, List.map_cons,
      List.append_assoc, List.cons_append, List.nil_append]
  | case5 => cases h

/-- The digits of bytes, the most significant first, denote the number that the bytes denote in the
reverse order. -/
theorem ofDigits_flatMap (bytes : Bytes) :
    Numeral.ofDigits 16 ((bytes.flatMap hexOfByte).map Numeral.digitValue) =
      toNat bytes.reverse := by
  have hdigit : ∀ n < 16, Numeral.digitValue (Nat.digitChar n) = n := by decide
  induction bytes using List.reverseRecOn with
  | nil => rfl
  | append_singleton bytes b ih =>
    have hlt := b.toNat_lt
    unfold Numeral.ofDigits at ih ⊢
    rw [List.flatMap_append, List.map_append, List.foldl_append, ih, List.reverse_concat, toNat]
    simp only [List.flatMap_singleton, hexOfByte, List.map_cons, List.map_nil, List.foldl_cons,
      List.foldl_nil, hdigit (b.toNat / 16) (by omega), hdigit (b.toNat % 16) (by omega)]
    omega

end Bytes

/-! ### What a declaration stores -/

namespace Syntax

/-- **The number spells the bytes**: its text is a mark of the base and two digits for each byte,
with underscores among them, and its value is that of the bytes, the most significant first. -/
structure Immediate.Spells (i : Immediate) (bytes : Bytes) : Prop where
  digits : ∃ mark run, i.text.toList = '0' :: mark :: run ∧ (mark = 'x' ∨ mark = 'X') ∧
    (run.filter (· ≠ '_')).map Char.toLower = bytes.flatMap Bytes.hexOfByte ∧
    (run.filter (· ≠ '_')).length = 2 * bytes.length
  value : i.value = Bytes.toNat bytes.reverse

/-- **The declaration stores the bytes**: its string, the bytes that its digits spell, or its
numbers, each of which is read back from its chunk. -/
inductive DataDecl.Stored (d : DataDecl) : (tile : Bytes) → Prop where
  | string {bytes : Bytes} (type : d.type = "str") (values : d.values = [.raw bytes]) :
      Stored d bytes
  | digits {numbers : List Immediate} {blobs : List Bytes} (type : d.type = "bytes")
      (values : d.values = numbers.map .immediate)
      (spells : List.Forall₂ Immediate.Spells numbers blobs) : Stored d blobs.flatten
  | numbers {numbers : List Immediate} {width : Nat} {signed : Bool} {tile : Bytes}
      (type : (d.type, width, signed) ∈ Analysis.numericTypes)
      (values : d.values = numbers.map .immediate) (length : tile.length = width * numbers.length)
      (read : (Bytes.chunks width numbers.length tile).map (Integer.unpack · signed) =
        numbers.map (·.value)) : Stored d tile

end Syntax

namespace Analysis

open Syntax

theorem spells_of_hexBlob {i : Immediate} {bytes : Bytes}
    (hi : Numeral.Denotes i.text.toList i.value) (h : hexBlob i.text = .ok (some bytes)) :
    i.Spells bytes := by
  unfold hexBlob at h
  split at h
  · rename_i digits hdigits
    split_ifs at h with hodd
    · cases h
    obtain ⟨mark, run, htext, hmark, hhex, rfl, hvalue⟩ := hi.hexadecimal hdigits
    split at h
    · rename_i found hfound
      cases h
      have hlower : ∀ c ∈ (run.filter (· ≠ '_')).map Char.toLower, isHexDigit c = true := by
        intro c hc
        obtain ⟨d, hd, rfl⟩ := List.mem_map.mp hc
        exact (isHexDigit_spec (hhex d hd)).2.1
      have hpairs := Bytes.ofHexFrom_eq_some hlower hfound
      have hidem : ((run.filter (· ≠ '_')).map Char.toLower).map Char.toLower =
          (run.filter (· ≠ '_')).map Char.toLower := by
        rw [List.map_map]
        refine List.map_congr_left fun c hc => ?_
        exact forall_isHexDigit (hhex c hc) (by decide +kernel)
      rw [hidem, List.reverse_nil, List.flatMap_nil, List.nil_append] at hpairs
      refine ⟨⟨mark, run, htext, hmark, hpairs, ?_⟩, ?_⟩
      · rw [← Bytes.length_flatMap_hexOfByte, ← hpairs, List.length_map]
      · rw [hvalue, ← Bytes.ofDigits_flatMap, ← hpairs, List.map_map]
        congr 2
        exact List.map_congr_left fun c hc => (Numeral.hexDigit_written (hhex c hc)).2.2.2.symm
    · cases h
  · cases h

theorem mapM_id_eq_some {found : List (Option Bytes)} {blobs : List Bytes}
    (h : found.mapM id = some blobs) : found = blobs.map some := by
  induction found generalizing blobs with
  | nil =>
    cases h
    rfl
  | cons blob? found ih =>
    rw [List.mapM_cons] at h
    obtain ⟨blob, hblob, h⟩ := Option.bind_eq_some_iff.mp h
    obtain ⟨rest, hrest, h⟩ := Option.bind_eq_some_iff.mp h
    cases h
    rw [List.map_cons, ← ih hrest, ← hblob, id]

theorem numberBytes_read {d : DataDecl} {file : Option String} {width : Nat} {signed : Bool}
    {i : Immediate} {field : Bytes} (hwidth : width ≠ 0)
    (h : numberBytes d file width signed (.immediate i) = .ok field) :
    field.length = width ∧ Integer.unpack field signed = i.value := by
  simp only [numberBytes] at h
  split_ifs at h
  have hpack := Steps.mapError_ok_iff.mp h
  exact ⟨Integer.length_of_pack hpack, Integer.unpack_pack hwidth hpack⟩

section Numbers
variable {d : DataDecl} {file : Option String} {bytes : Bytes} {numbers : List Immediate}
  (hvalues : d.values = numbers.map .immediate)
include hvalues

theorem digits_stored (htype : d.type = blobType)
    (hnumbers : ∀ i ∈ numbers, Numeral.Denotes i.text.toList i.value)
    (h : datumBytes d file = .ok bytes) : d.Stored bytes := by
  have hno : blobType ≠ stringType := by decide
  rw [datumBytes, htype, if_neg hno, if_pos rfl, hvalues] at h
  obtain ⟨found, hfound, h⟩ := Steps.bind_eq_ok.mp h
  rw [Steps.mapM_eq_ok, List.forall₂_map_left_iff] at hfound
  split at h
  · rename_i blobs hblobs
    cases h
    obtain rfl := mapM_id_eq_some hblobs
    rw [List.forall₂_map_right_iff] at hfound
    refine .digits htype hvalues (Steps.forall₂_imp_mem hfound fun i hi blob _ hblob => ?_)
    exact spells_of_hexBlob (hnumbers i hi) (Steps.mapError_ok_iff.mp hblob)
  · cases h

theorem numbers_stored (hstring : d.type ≠ stringType) (hblob : d.type ≠ blobType)
    (h : datumBytes d file = .ok bytes) : d.Stored bytes := by
  rw [datumBytes, if_neg hstring, if_neg hblob] at h
  split at h
  · rename_i width signed htype
    obtain ⟨fields, hfields, h⟩ := Steps.bind_eq_ok.mp h
    cases h
    have hwidth := numericType?_width htype
    rw [hvalues, Steps.mapM_eq_ok, List.forall₂_map_left_iff] at hfields
    have hread := hfields.imp fun i field hfield => numberBytes_read hwidth hfield
    have hsizes : ∀ field ∈ fields, field.length = width := by
      intro field hfield
      obtain ⟨i, -, hlength, -⟩ := Steps.exists_mem_left hread field hfield
      exact hlength
    refine .numbers (numericType?_eq_some.mp htype) hvalues ?_ ?_
    · rw [hread.length_eq, length_flatten_words hsizes]
    · rw [hread.length_eq, Bytes.chunks_flatten hsizes, ← List.forall₂_eq_eq_eq,
        List.forall₂_map_left_iff, List.forall₂_map_right_iff]
      exact (hread.imp fun i field h => h.2).flip
  · cases h

end Numbers

/-- **A declaration of a source in which nothing is wrong stores what it says.** -/
theorem datumBytes_stored {d : DataDecl} {st : Statement} {size : Nat} {file : Option String}
    {bytes : Bytes} (hst : st.Typed) (hd : st.Declares names (.data d))
    (hsize : datumSize d = .ok (size, [])) (h : datumBytes d file = .ok bytes) :
    d.Stored bytes := by
  cases hd with
  | string hliteral =>
    have hbytes : bytes = _ := (Except.ok.inj h).symm
    rw [hbytes]
    exact .string rfl (by simp [rawBytes?])
  | @numbers name type values numbers hnumbers =>
    have hdenotes : ∀ i ∈ numbers, Numeral.Denotes i.text.toList i.value := by
      intro i hi
      obtain ⟨t, -, hvalue, htext, -⟩ := Steps.exists_mem_left hnumbers i hi
      rw [htext]
      exact hvalue
    by_cases hstring : Text.lower type.text = stringType
    · -- Numbers are no string, and there is one at least.
      rcases numbers with _ | ⟨i, numbers⟩
      · exact absurd (List.forall₂_nil_right_iff.mp hnumbers) hst.2.2.1
      · simp [datumSize, hstring, rawBytes?] at hsize
    · by_cases hblob : Text.lower type.text = blobType
      · exact digits_stored rfl hblob hdenotes h
      · exact numbers_stored rfl hstring hblob h

/-! ### The tiles of the segment -/

theorem map_room_placements (offset : Nat) (ds : List (DataDecl × Nat × List Cause)) :
    (placements offset ds).map (fun q => (q.decl, q.size)) = ds.map fun x => (x.1, x.2.1) := by
  induction ds generalizing offset with
  | nil => rfl
  | cons x ds ih => simp only [placements, List.map_cons, ih]

/-- Data of known sizes have the symbols that blocks of these sizes start at. -/
theorem symbols_of_blocks {ds : List (DataDecl × Nat × List Cause)} {blocks : List Bytes}
    (h : List.Forall₂ (fun x (block : Bytes) => block.length = x.2.1) ds blocks) (offset : Nat) :
    objectSymbols ((placements offset ds).map PlacedDatum.symbol) = (ds.map (·.1)).mapIdx
      fun k d => ⟨d.name, .dataSymbol, (offset + (blocks.take k).flatten.length : Nat)⟩ := by
  induction h generalizing offset with
  | nil => rfl
  | @cons x block ds blocks hx _ ih =>
    have hrest := ih (offset + x.2.1)
    unfold objectSymbols at hrest ⊢
    simp only [placements, List.map_cons, List.mapIdx_cons, hrest, List.take_zero,
      List.flatten_nil, List.length_nil, Nat.add_zero, List.take_succ_cons, List.flatten_cons,
      List.length_append, hx, Nat.add_assoc, PlacedDatum.symbol, Option.getD_some]

/-- The symbols of the data are those of the places that the first pass gives them. -/
theorem Accepted.dataSymbols {p : Program} {a : Analysis} (h : Accepted p a) :
    (a.symbols.ofKinds [.localLabel, .dataSymbol]).filter (·.kind = .dataSymbol) =
      (placements 0 (sized p)).map PlacedDatum.symbol := by
  obtain ⟨imports, hsymbols, himports⟩ := h.symbols
  have hconstants : ∀ s ∈ p.constants.map constantSymbol, s.kind = .constant :=
    List.forall_mem_map.mpr fun _ _ => rfl
  have hdata : ∀ s ∈ (placements 0 (sized p)).map PlacedDatum.symbol, s.kind = .dataSymbol :=
    List.forall_mem_map.mpr fun _ _ => rfl
  rw [SymbolTable.ofKinds, List.filter_filter, hsymbols]
  simp only [List.filter_append]
  rw [List.filter_eq_nil_iff.mpr, List.filter_eq_self.mpr, List.filter_eq_nil_iff.mpr,
    List.filter_eq_nil_iff.mpr, List.nil_append, List.append_nil, List.append_nil]
  · intro s hs
    obtain ⟨_, _, _, rfl⟩ := himports s hs
    simp
  · intro s hs
    rcases marks_kind hs with hk | hk <;> simp [hk]
  · intro s hs
    simp [hdata s hs]
  · intro s hs
    simp [hconstants s hs]

theorem filter_objectSymbols (symbols : List Symbol) (kind : SymbolKind) :
    (objectSymbols symbols).filter (·.kind = kind) =
      objectSymbols (symbols.filter (·.kind = kind)) := by
  rw [objectSymbols, List.filter_map]
  rfl

/-- **The data segment holds the declared values.** The data of an accepted program tile the
segment in source order, each tile stores what its declaration says, and the symbols of the data
are the places where the tiles start. -/
theorem data_holds_declared_values {text : String} {file file' : Option String} {p : Program}
    {extra : List String} {a : Analysis} (hparse : parse names text file = .ok p)
    (hanalysis : ofProgram p extra file' = .ok a) (hok : a.ok = true) (name : Option String) :
    ∃ o tiles, a.encode name = .ok o ∧ o.data = tiles.flatten ∧
      List.Forall₂ DataDecl.Stored p.data tiles ∧
      o.symbols.filter (·.kind = .dataSymbol) = p.data.mapIdx fun k d =>
        ⟨d.name, .dataSymbol, (tiles.take k).flatten.length⟩ := by
  have haccepted := ofProgram_accepted hanalysis hok
  obtain ⟨o, hencode, -, -⟩ := exists_encode (parse_written hparse) haccepted hok name
  obtain ⟨-, room, words, tiles, -, -, -, htiles, rfl⟩ := encode_eq_ok.mp hencode
  rw [haccepted.data, Steps.mapM_eq_ok] at htiles
  have hplaced : List.Forall₂ (fun x (tile : Bytes) => datumBytes x.1 a.file = .ok tile ∧
      tile.length = x.2) ((placements 0 (sized p)).map fun q => (q.decl, q.size)) tiles := by
    rw [List.forall₂_map_left_iff]
    refine htiles.imp fun q tile htile => ?_
    obtain ⟨bytes, hbytes, htile⟩ := Steps.bind_eq_ok.mp htile
    split_ifs at htile with hsize
    cases htile
    exact ⟨hbytes, Int.ofNat.inj hsize⟩
  rw [map_room_placements, List.forall₂_map_left_iff] at hplaced
  refine ⟨_, tiles, hencode, rfl, ?_, ?_⟩
  · have hwritten := hplaced.imp fun x tile h => h.1
    rw [sized, List.forall₂_map_left_iff] at hwritten
    refine Steps.forall₂_imp_mem hwritten fun d hd tile _ htile => ?_
    obtain ⟨st, htyped, hdeclares⟩ := parse_declared_data hparse hd
    exact datumBytes_stored htyped hdeclares (haccepted.datumSize_eq hd) htile
  · have hsymbols := symbols_of_blocks (hplaced.imp fun x tile h => h.2) 0
    have hdecls : (sized p).map (·.1) = p.data := by
      simp [sized, Function.comp_def]
    rw [hdecls, ← haccepted.dataSymbols, ← filter_objectSymbols] at hsymbols
    simp only [Nat.zero_add] at hsymbols
    exact hsymbols

/-- Numbers of two widths, digits with underscores and leading zeros, and strings, one of them
empty. -/
def tiledSource : String :=
  ".DATA\nw = u16 1, 0xFFFF\ns = i8 -2\nb = bytes 0x00_A1, 0XffFF\ne = \"\"\nt = \"hi\"\n"

theorem data_holds_declared_values_tiled : ∃ p a o tiles, parse nameless tiledSource none = .ok p ∧
    ofProgram p [] none = .ok a ∧ a.ok = true ∧ a.encode none = .ok o ∧ o.data = tiles.flatten ∧
    List.Forall₂ DataDecl.Stored p.data tiles ∧ (o.data, o.symbols.map (·.value)) =
      ([1, 0, 255, 255, 254, 0, 161, 255, 255, 104, 105], [0, 4, 5, 9, 9]) := by
  obtain ⟨o, hobject, hparts⟩ := Option.map_eq_some_iff.mp
    (by decide +kernel : (objectOf? tiledSource).map (fun o => (o.data, o.symbols.map (·.value))) =
      some ([1, 0, 255, 255, 254, 0, 161, 255, 255, 104, 105], [0, 4, 5, 9, 9]))
  obtain ⟨p, a, hparse, hanalysis, hok, hencode⟩ := stages_of_objectOf? hobject
  obtain ⟨o', tiles, hencode', htiles, hstored, -⟩ :=
    data_holds_declared_values hparse hanalysis hok none
  cases hencode.symm.trans hencode'
  exact ⟨p, a, o, tiles, hparse, hanalysis, hok, hencode, htiles, hstored, hparts⟩

end Analysis

end AluVM
