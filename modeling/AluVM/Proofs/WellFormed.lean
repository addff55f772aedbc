import AluVM.Proofs.Data
import AluVM.Proofs.Identity

/-! # Well-formed programs

What a program has to be like, said without the passes that check it. Everything is about the
declarations of the program itself: there is no table of symbols, and an offset is the sum of the
sizes of what comes before.

* `DataDecl.Takes`: the bytes that a declaration of data takes; there is none for a bad one.
* `Program.Fits`: the operands that a slot takes.
* `Program.WellFormed`: all conditions on a program together.

The rest of the module is about one declaration: which texts are ids (`isId_iff`), and that the
measure of a declaration is the number of bytes that it takes (`gauged_of_plain`). -/

namespace AluVM

/-- The name asks for the extension; letter case and blanks around it do not matter. -/
def Extension.Named (e : Extension) (name : String) : Prop := e.name = Text.upper (Text.strip name)

namespace Syntax

/-- The text is an id: a known algorithm, a colon and the digits of a digest. -/
def IsId (text : String) : Prop :=
  ∃ s ∈ ContentId.Strategy.known, ∃ digits : List Char,
    Text.stripChars text.toList = s.name.toList ++ ':' :: digits ∧ digits.length = 64 ∧
      ∀ c ∈ digits, isHexDigit c = true

/-- The text gives `n` bytes, two hexadecimal digits each, after `0x`. Letter case and underscores
do not matter. -/
def IsHex (text : String) (n : Nat) : Prop :=
  ∃ digits, Text.lowerChars (text.toList.filter (· ≠ '_')) = '0' :: 'x' :: digits ∧
    digits.length = 2 * n ∧ ∀ c ∈ digits, isHexDigit c = true

/-- The declaration takes `n` bytes. -/
inductive DataDecl.Takes (d : DataDecl) : (n : Nat) → Prop where
  | string {strings : List Bytes} (type : d.type = "str")
      (values : d.values = strings.map .raw) : Takes d (strings.map List.length).sum
  | blob {numbers : List Immediate} {lengths : List Nat} (type : d.type = "bytes")
      (values : d.values = numbers.map .immediate)
      (hex : List.Forall₂ (fun i n => IsHex i.text n) numbers lengths) : Takes d lengths.sum
  | number {numbers : List Immediate} {width : Nat} {signed : Bool}
      (type : (d.type, width, signed) ∈ Analysis.numericTypes)
      (values : d.values = numbers.map .immediate)
      (fits : ∀ i ∈ numbers, Integer.fits i.value (8 * width) signed = true) :
      Takes d (width * numbers.length)

namespace Program

/-- The names of the extensions that are asked for, from outside and by the program. -/
def asked (p : Program) (extra : List String) : List String := extra ++ p.extensions.map (·.name)

/-- The names of routines and labels in source order. -/
def codeNames (p : Program) : List String := p.lines.filterMap CodeLine.name?

/-- The slot takes the operand. -/
inductive Fits (p : Program) : Slot → Operand → Prop where
  | register {banks : List Bank} {sets : List String} {token : String} {index : Int}
      {set : RegisterSet} (known : set ∈ RegisterSet.all)
      (named : set.name = Text.lower (Text.strip token)) (bank : set.bank ∈ banks)
      (allowed : sets = [] ∨ set.name ∈ sets) (inside : 0 ≤ index ∧ index < set.count) :
      Fits p (.register banks sets) (.register token index)
  | literal {bits : Nat} {signed : Bool} {i : Immediate}
      (fits : Integer.fits i.value bits signed = true) :
      Fits p (.immediate bits signed) (.immediate i)
  | constant {bits : Nat} {signed : Bool} {d : ConstantDecl} (declared : d ∈ p.constants)
      (fits : Integer.fits d.value.value bits signed = true) :
      Fits p (.immediate bits signed) (.symbol d.name)
  | label {name : String} (declared : name ∈ p.codeNames) : Fits p .label (.symbol name)
  | datum {d : DataDecl} (declared : d ∈ p.data) : Fits p .data (.symbol d.name)
  | call {library routine : String} : Fits p .foreign (.call library routine)

end Program

/-- The set that a register is of, by name. -/
def Operand.setName? : Operand → Option String
  | register token _ => some (Text.lower (Text.strip token))
  | _ => none

/-- **The instruction is well-formed** in a program: it exists, its extension is there, its slots
take its operands, and its registers are of one set if they have to be. -/
def Instruction.WellFormed (p : Program) (extra : List String) (i : Instruction) : Prop :=
  ∃ spec ∈ Spec.all, spec.mnemonic = Text.lower i.mnemonic ∧
    (spec.extension = .alu ∨ ∃ name ∈ p.asked extra, spec.extension.Named name) ∧
    List.Forall₂ (fun operand slot => p.Fits slot operand) i.operands spec.slots ∧
    (spec.sameSet = true → ∀ a ∈ i.operands.filterMap Operand.setName?,
      ∀ b ∈ i.operands.filterMap Operand.setName?, a = b)

/-- **The program is well-formed**, with the names of extensions that are asked for from outside. -/
structure Program.WellFormed (p : Program) (extra : List String) : Prop where
  extensions : ∀ name ∈ p.asked extra, ∃ e : Extension, e.Named name
  libraries : (p.libraries.map (·.name)).Nodup
  ids : ∀ d ∈ p.libraries, ∀ id ∈ d.id, IsId id
  constants : (p.constants.map (·.name)).Nodup
  data : (p.data.map (·.name)).Nodup
  /-- Every declaration of data has a size, starts in reach, and all fit their segment. -/
  room : ∃ sizes, List.Forall₂ DataDecl.Takes p.data sizes ∧
    (∀ k < sizes.length, (sizes.take k).sum ≤ 65535) ∧ sizes.sum ≤ 65536
  main : (p.routines.filter (·.name.isNone)).length ≤ 1
  code : p.codeNames.Nodup
  /-- Routines and labels are in reach: an instruction takes eight bytes. -/
  reach : ∀ before kind name pos after, p.lines = before ++ .mark kind name pos :: after →
    8 * (wordsOf before).length ≤ 65535
  size : 8 * p.instructions.length ≤ 65536
  instructions : ∀ i ∈ p.instructions, i.WellFormed p extra

end Syntax

open Syntax (isHexDigit IsId IsHex)

/-! ### Tables with one entry a name -/

theorem find?_key_eq_some {α : Type} {key : α → String} {xs : List α} (hxs : (xs.map key).Nodup)
    {k : String} {x : α} : xs.find? (key · = k) = some x ↔ x ∈ xs ∧ key x = k := by
  constructor
  · intro h
    exact ⟨List.mem_of_find?_eq_some h, by simpa using List.find?_some h⟩
  · rintro ⟨hx, hk⟩
    rcases hf : xs.find? (key · = k) with _ | y
    · exact absurd hk (by simpa using List.find?_eq_none.mp hf x hx)
    · have hy : key y = k := by simpa using List.find?_some hf
      rw [List.inj_on_of_nodup_map hxs (List.mem_of_find?_eq_some hf) hx (hy.trans hk.symm)]

theorem Extension.named?_eq_some {name : String} {e : Extension} :
    Extension.named? name = some e ↔ e.Named name := by
  have hall : e ∈ Extension.all := by cases e <;> decide
  exact (find?_key_eq_some (by decide)).trans (and_iff_right hall)

theorem RegisterSet.named?_eq_some {token : String} {set : RegisterSet} :
    RegisterSet.named? token = some set ↔
      set ∈ RegisterSet.all ∧ set.name = Text.lower (Text.strip token) :=
  find?_key_eq_some (by decide +kernel)

theorem Spec.named?_eq_some {mnemonic : String} {spec : Spec} :
    Spec.named? mnemonic = some spec ↔ spec ∈ Spec.all ∧ spec.mnemonic = Text.lower mnemonic :=
  find?_key_eq_some (by decide +kernel)

/-! ### Hexadecimal digits -/

theorem isHexDigit_eq (c : Char) : isHexDigit c = (Bytes.hexValue? c).isSome := by
  unfold isHexDigit Bytes.hexValue?
  have hdigit : c.isDigit = ('0' ≤ c && c ≤ '9') := rfl
  rw [hdigit]
  split_ifs <;> simp_all

/-- What holds of every hexadecimal digit can be checked, since they are ASCII characters. -/
@[elab_as_elim]
theorem forall_isHexDigit {motive : Char → Prop} {c : Char} (h : isHexDigit c = true)
    (hall : ∀ n < 128, isHexDigit (Char.ofNat n) = true → motive (Char.ofNat n)) : motive c := by
  have hlt : c.toNat < 128 := by
    simp only [isHexDigit, Char.isDigit, Bool.or_eq_true, Bool.and_eq_true, decide_eq_true_eq,
      Char.le_def, ge_iff_le, UInt32.le_iff_toNat_le] at h
    have hvalue : c.toNat = c.val.toNat := rfl
    have hf : 'f'.val.toNat = 102 := rfl
    have hF : 'F'.val.toNat = 70 := rfl
    have h9 : '9'.val.toNat = 57 := rfl
    omega
  have hc := hall c.toNat hlt
  rw [Char.ofNat_toNat] at hc
  exact hc h

theorem isHexDigit_spec {c : Char} (h : isHexDigit c = true) :
    Text.lowerChar c = [c.toLower] ∧ isHexDigit c.toLower = true ∧ c ≠ '_' := by
  refine forall_isHexDigit h ?_
  decide +kernel

/-! ### Ids -/

theorem ContentId.isId_iff {text : String} : isId text = true ↔ IsId text := by
  constructor
  · intro h
    obtain ⟨s, hs, digest, hsplit⟩ := split?_of_isId h
    obtain ⟨-, digits, hstrip, hlen, hall, -⟩ := split?_eq_some_iff.mp hsplit
    refine ⟨s, hs, digits, hstrip, hlen, fun c hc => ?_⟩
    rw [isHexDigit_eq]
    exact hall c hc
  · rintro ⟨s, hs, digits, hstrip, hlen, hall⟩
    have hvalues : ∀ c ∈ digits, (Bytes.hexValue? c).isSome = true := by
      intro c hc
      rw [← isHexDigit_eq]
      exact hall c hc
    obtain ⟨digest, hdigest, -⟩ := Bytes.exists_ofHexFrom 32 [] hlen hvalues
    have hsplit : split? text = some (s.name, digest) :=
      split?_eq_some_iff.mpr ⟨(s.name_spec hs).1, digits, hstrip, hlen, hvalues, hdigest⟩
    have hnamed : (Strategy.named? s.name).isSome = true := by
      rw [Strategy.named?, List.find?_isSome]
      exact ⟨s, hs, by simp⟩
    simp [isId, hsplit, hnamed]

namespace Analysis

open Syntax

/-! ### Digits of a number -/

theorem lowerChars_hexDigits {cs : List Char} (h : ∀ c ∈ cs, isHexDigit c = true) :
    (Text.lowerChars cs).length = cs.length ∧ ∀ c ∈ Text.lowerChars cs, isHexDigit c = true := by
  have hmap : Text.lowerChars cs = cs.map Char.toLower := by
    rw [Text.lowerChars, List.map_eq_flatMap]
    exact List.flatMap_congr fun c hc => (isHexDigit_spec (h c hc)).1
  rw [hmap]
  refine ⟨List.length_map _, fun c hc => ?_⟩
  obtain ⟨d, hd, rfl⟩ := List.mem_map.mp hc
  exact (isHexDigit_spec (h d hd)).2.1

/-- A run of digits without its underscores. -/
theorem filter_digitRun {isDigit : Char → Bool} (hhex : ∀ c, isDigit c = true → isHexDigit c = true)
    {run : List Char} (h : DigitRun isDigit run) :
    run.filter (· ≠ '_') ≠ [] ∧ ∀ c ∈ run.filter (· ≠ '_'), isHexDigit c = true := by
  obtain ⟨d, ds, rfl, hd, hds⟩ := h
  have hkeep : d ≠ '_' := (isHexDigit_spec (hhex d hd)).2.2
  refine ⟨by simp [hkeep], fun c hc => ?_⟩
  obtain ⟨hc, hne⟩ := List.mem_filter.mp hc
  rcases List.mem_cons.mp hc with rfl | hc
  · exact hhex c hd
  · exact hhex c ((hds c hc).resolve_right (by simpa using hne))

/-- A number that starts with `0x` has hexadecimal digits after it and nothing else. -/
theorem IsNumber.digits {s : String} (h : IsNumber s) {digits : List Char}
    (hdigits : Text.lowerChars (s.toList.filter (· ≠ '_')) = '0' :: 'x' :: digits) :
    digits ≠ [] ∧ ∀ c ∈ digits, isHexDigit c = true := by
  obtain ⟨sign, body, hs, hsign, hbody⟩ := h.parts
  rw [hs] at hdigits
  have hunsigned : sign = [] := by
    rcases hsign with rfl | rfl | rfl
    · rfl
    · simp [Text.lowerChars, Text.lowerChar] at hdigits
    · simp [Text.lowerChars, Text.lowerChar] at hdigits
  rw [hunsigned, List.nil_append] at hdigits
  cases hbody with
  | @hexadecimal mark run marked hrun =>
    have hlower : Text.lowerChars (('0' :: mark :: run).filter (· ≠ '_')) =
        '0' :: 'x' :: Text.lowerChars (run.filter (· ≠ '_')) := by
      rcases marked with rfl | rfl <;> rfl
    obtain ⟨hne, hhex⟩ := filter_digitRun (fun _ => id) hrun
    obtain ⟨hlen, hall⟩ := lowerChars_hexDigits hhex
    rw [hlower, List.cons.injEq, List.cons.injEq] at hdigits
    rw [← hdigits.2.2]
    exact ⟨by rw [← List.length_pos_iff, hlen, List.length_pos_iff]; exact hne, hall⟩
  | binary marked hrun =>
    rcases marked with rfl | rfl <;> simp [Text.lowerChars, Text.lowerChar] at hdigits
  | octal marked hrun =>
    rcases marked with rfl | rfl <;> simp [Text.lowerChars, Text.lowerChar] at hdigits
  | decimal hrun =>
    -- There is no `x` in a decimal number.
    have hhex := (filter_digitRun (fun c hc => by simp [isHexDigit, hc]) hrun).2
    have hx := (lowerChars_hexDigits hhex).2 'x' (by rw [hdigits]; simp)
    exact absurd hx (by decide)

/-! ### The measure of data -/

/-- **The bytes that a number denotes** are those of its digits. -/
theorem hexBlob_spec {text : String} (h : IsNumber text) : ∃ blob : Option Bytes,
    hexBlob text = .ok blob ∧ ∀ n, IsHex text n ↔ blob.map List.length = some n := by
  unfold hexBlob
  split
  · rename_i digits hdigits
    obtain ⟨hne, hall⟩ := IsNumber.digits h hdigits
    have hhex : ∀ n, IsHex text n ↔ digits.length = 2 * n := by
      refine fun n => ⟨?_, fun hlen => ⟨digits, hdigits, hlen, hall⟩⟩
      rintro ⟨digits', heq, hlen, -⟩
      cases hdigits.symm.trans heq
      exact hlen
    have hempty : digits.isEmpty = false := by simpa using hne
    simp only [hempty, Bool.false_or, decide_eq_true_eq]
    split_ifs with hodd
    · refine ⟨none, rfl, fun n => ?_⟩
      rw [hhex]
      simp only [Option.map_none, reduceCtorEq, iff_false]
      omega
    · have heven : digits.length = 2 * (digits.length / 2) := by omega
      obtain ⟨bytes, hbytes, hlen⟩ := Bytes.exists_ofHexFrom _ [] heven fun c hc => by
        rw [← isHexDigit_eq]
        exact hall c hc
      rw [Bytes.ofHex?, hbytes]
      refine ⟨some bytes, rfl, fun n => ?_⟩
      rw [hhex, Option.map_some, Option.some_inj, hlen, List.length_nil]
      omega
  · rename_i hno
    refine ⟨none, rfl, fun n => ?_⟩
    simp only [Option.map_none, reduceCtorEq, iff_false]
    rintro ⟨digits, heq, -, -⟩
    exact hno digits heq

theorem mapM_rawBytes?_eq_some : ∀ {values : List Operand} {strings : List Bytes},
    values.mapM rawBytes? = some strings ↔ values = strings.map .raw
  | [], strings => by cases strings <;> simp
  | value :: values, strings => by
    have ih : ∀ ss, values.mapM rawBytes? = some ss ↔ values = ss.map .raw :=
      fun ss => mapM_rawBytes?_eq_some
    rw [List.mapM_cons]
    cases value <;> cases strings <;> simp [rawBytes?, Option.bind_eq_some_iff, ih, and_comm]

/-- Values of the type of digits are sound if they all denote bytes, which then are the bytes that
the declaration takes. -/
theorem blobs_spec {d : DataDecl} {numbers : List Immediate} {blobs : List (Option Bytes)}
    (h : List.Forall₂ (fun (i : Immediate) (blob : Option Bytes) =>
      ∀ n, IsHex i.text n ↔ blob.map List.length = some n) numbers blobs) (size : Nat) :
    ((blobs.flatMap fun b => b.getD []).length = size ∧
      ((numbers.map Operand.immediate).zip blobs).filterMap
        (fun (v, b) => blobCause? d v b) = []) ↔
      ∃ lengths, List.Forall₂ (fun (i : Immediate) n => IsHex i.text n) numbers lengths ∧
        lengths.sum = size := by
  induction h generalizing size with
  | nil => simp
  | @cons i blob numbers blobs hi _ ih =>
    simp only [List.map_cons, List.zip_cons_cons, List.filterMap_cons, List.flatMap_cons,
      List.length_append, List.forall₂_cons_left_iff, hi]
    rcases blob with _ | bytes
    · simp [blobCause?]
    · simp only [blobCause?, Option.isSome_some, if_true, Option.getD_some, Option.map_some,
        Option.some_inj]
      constructor
      · rintro ⟨rfl, hcauses⟩
        obtain ⟨lengths, hlengths, hsum⟩ := (ih _).mp ⟨rfl, hcauses⟩
        exact ⟨bytes.length :: lengths, ⟨_, lengths, rfl, hlengths, rfl⟩, by
          rw [List.sum_cons, hsum]⟩
      · rintro ⟨-, ⟨n, lengths, rfl, hlengths, rfl⟩, rfl⟩
        obtain ⟨hsum, hcauses⟩ := (ih _).mpr ⟨lengths, hlengths, rfl⟩
        exact ⟨by rw [hsum, List.sum_cons], hcauses⟩

theorem numericType?_eq_some {type : String} {width : Nat} {signed : Bool} :
    numericType? type = some (width, signed) ↔ (type, width, signed) ∈ numericTypes := by
  constructor
  · intro h
    obtain ⟨before, after, hmem, -⟩ := List.lookup_eq_some_iff.mp h
    rw [hmem]
    simp
  · intro h
    have hall : ∀ x ∈ numericTypes, numericTypes.lookup x.1 = some x.2 := by decide +kernel
    exact hall _ h

theorem type_ne_of_numeric {type : String} {width : Nat} {signed : Bool}
    (h : (type, width, signed) ∈ numericTypes) : type ≠ stringType ∧ type ≠ blobType := by
  have hall : ∀ x ∈ numericTypes, x.1 ≠ stringType ∧ x.1 ≠ blobType := by decide +kernel
  exact hall _ h

theorem valueCauses_eq_nil {d : DataDecl} {width : Nat} {signed : Bool}
    {numbers : List Immediate} :
    (numbers.map Operand.immediate).filterMap (valueCause? d width signed) = [] ↔
      ∀ i ∈ numbers, Integer.fits i.value (8 * width) signed = true := by
  rw [List.filterMap_eq_nil_iff, List.forall_mem_map]
  refine forall₂_congr fun i hi => ?_
  simp [valueCause?]

theorem map_immediate_injective : Function.Injective (List.map Operand.immediate) :=
  List.map_injective_iff.mpr fun _ _ h => Operand.immediate.inj h

/-- The declaration has a measure, and nothing is wrong with it exactly if the measure is the
number of bytes that the declaration takes. -/
def Gauged (d : DataDecl) : Prop :=
  ∃ size causes, datumSize d = .ok (size, causes) ∧ ∀ n, d.Takes n ↔ size = n ∧ causes = []

theorem gauged_string {d : DataDecl} (htype : d.type = stringType) : Gauged d := by
  have htakes : ∀ n, d.Takes n ↔
      ∃ strings : List Bytes, d.values = strings.map .raw ∧ strings.flatten.length = n := by
    intro n
    constructor
    · intro h
      cases h with
      | @string strings _ values => exact ⟨strings, values, List.length_flatten⟩
      | blob type _ _ => exact absurd (htype.symm.trans type) (by decide)
      | number type _ _ => exact absurd htype (type_ne_of_numeric type).1
    · rintro ⟨strings, values, rfl⟩
      rw [List.length_flatten]
      exact .string htype values
  rw [Gauged, datumSize, if_pos htype]
  rcases hraw : d.values.mapM rawBytes? with _ | strings
  · refine ⟨_, _, rfl, fun n => ?_⟩
    rw [htakes]
    simp only [List.cons_ne_self, and_false, iff_false]
    rintro ⟨strings, values, -⟩
    rw [mapM_rawBytes?_eq_some.mpr values] at hraw
    cases hraw
  · have hvalues := mapM_rawBytes?_eq_some.mp hraw
    refine ⟨_, _, rfl, fun n => ?_⟩
    rw [htakes]
    constructor
    · rintro ⟨strings', values, rfl⟩
      have heq := hraw.symm.trans (mapM_rawBytes?_eq_some.mpr values)
      exact ⟨congrArg (·.flatten.length) (Option.some.inj heq), rfl⟩
    · rintro ⟨rfl, -⟩
      exact ⟨strings, hvalues, rfl⟩

section Numbers
variable {d : DataDecl} {numbers : List Immediate} (hvalues : d.values = numbers.map .immediate)
include hvalues

theorem gauged_blob (htype : d.type = blobType) (hnumbers : ∀ i ∈ numbers, IsNumber i.text) :
    Gauged d := by
  have hno : blobType ≠ stringType := by decide
  have htakes : ∀ n, d.Takes n ↔ ∃ lengths,
      List.Forall₂ (fun (i : Immediate) n => IsHex i.text n) numbers lengths ∧ lengths.sum = n := by
    intro n
    constructor
    · intro h
      cases h with
      | string type _ => exact absurd (htype.symm.trans type) (by decide)
      | blob _ values hex =>
        cases map_immediate_injective (hvalues.symm.trans values)
        exact ⟨_, hex, rfl⟩
      | number type _ _ => exact absurd htype (type_ne_of_numeric type).2
    · rintro ⟨lengths, hex, rfl⟩
      exact .blob htype hvalues hex
  obtain ⟨blobs, hblobs⟩ := Steps.exists_forall₂ fun i hi => hexBlob_spec (hnumbers i hi)
  have hread : (numbers.map Operand.immediate).mapM blobOf = .ok blobs := by
    rw [Steps.mapM_eq_ok, List.forall₂_map_left_iff]
    exact hblobs.imp fun i blob h => h.1
  rw [Gauged, datumSize, htype, if_neg hno, if_pos rfl, hvalues, hread]
  refine ⟨_, _, rfl, fun n => ?_⟩
  rw [htakes, blobs_spec (hblobs.imp fun i blob h => h.2)]

theorem gauged_number (hstring : d.type ≠ stringType) (hblob : d.type ≠ blobType) : Gauged d := by
  have htakes : ∀ n, d.Takes n ↔ ∃ width signed, (d.type, width, signed) ∈ numericTypes ∧
      (∀ i ∈ numbers, Integer.fits i.value (8 * width) signed = true) ∧
      width * numbers.length = n := by
    intro n
    constructor
    · intro h
      cases h with
      | string type _ => exact absurd type hstring
      | blob type _ _ => exact absurd type hblob
      | number type values fits =>
        cases map_immediate_injective (hvalues.symm.trans values)
        exact ⟨_, _, type, fits, rfl⟩
    · rintro ⟨width, signed, type, fits, rfl⟩
      exact .number type hvalues fits
  rw [Gauged, datumSize, if_neg hstring, if_neg hblob]
  rcases htype : numericType? d.type with _ | ⟨width, signed⟩
  · refine ⟨_, _, rfl, fun n => ?_⟩
    rw [htakes]
    simp only [List.cons_ne_self, and_false, iff_false]
    rintro ⟨width, signed, type, -⟩
    rw [numericType?_eq_some.mpr type] at htype
    cases htype
  · refine ⟨_, _, rfl, fun n => ?_⟩
    rw [htakes, hvalues, valueCauses_eq_nil, List.length_map]
    constructor
    · rintro ⟨width', signed', type, fits, rfl⟩
      cases htype.symm.trans (numericType?_eq_some.mpr type)
      exact ⟨rfl, fits⟩
    · rintro ⟨rfl, fits⟩
      exact ⟨width, signed, numericType?_eq_some.mp htype, fits, rfl⟩

end Numbers

/-- **The measure of a declaration of a source.** -/
theorem gauged_of_plain {d : DataDecl} (h : d.Plain) : Gauged d := by
  by_cases hstring : d.type = stringType
  · exact gauged_string hstring
  · obtain ⟨numbers, hvalues, hnumbers⟩ := h.resolve_left fun h => hstring h.1
    by_cases hblob : d.type = blobType
    · exact gauged_blob hvalues hblob hnumbers
    · exact gauged_number hvalues hstring hblob

end Analysis

end AluVM
