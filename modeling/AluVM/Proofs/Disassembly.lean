import AluVM.Listing.Disassembly
import AluVM.Proofs.Encoding
import AluVM.Proofs.Forms

/-! # The text of an encoded instruction

The encoder writes an opcode and one field for each slot; the disassembler finds the template by the
opcode and reads the fields with it. Each operand is shown as it was given: a register by the name
of its set and its index, a number in decimal, and a name by the relocation that waits for it
(`Shown`). That rests on three facts about tables and numbers: opcodes are different ones, codes of
register sets are different ones, and an integer that was packed is unpacked again.

What the disassembler is told about relocations may come from one instruction or from a whole
object; it only has to be right at the fields of the instruction (`Tells`). -/

namespace AluVM

/-! ### Tables -/

/-- Every instruction is found by its opcode. -/
theorem Spec.ofOpcode?_opcode : ∀ s ∈ Spec.all, Spec.ofOpcode? s.opcode.toNat = some s := by
  decide +kernel

/-- Every register set is found by its code, which is a byte. -/
theorem RegisterSet.ofCode?_code : ∀ s ∈ RegisterSet.all,
    s.code < 256 ∧ RegisterSet.ofCode? s.code = some s := by
  decide +kernel

/-- No slot is empty. -/
theorem Slot.size_pos {s : Slot} (h : s.isWhole = true) : 0 < s.size := by
  cases s with
  | immediate bits signed =>
    simp only [Slot.isWhole, Bool.and_eq_true, decide_eq_true_eq, ne_eq] at h
    simp only [Slot.size]
    omega
  | register | label | data | foreign => simp [Slot.size]

open Analysis Syntax

/-! ### Operands -/

/-- **How an operand is shown**: a register by the name of its set and its index, a number in
decimal, and a name as it is. -/
inductive Syntax.Operand.Shown : Operand → String → Prop where
  | register {token : String} {index : Int} {set : RegisterSet}
      (named : RegisterSet.named? token = some set) :
      Shown (.register token index) (set.name ++ "[" ++ Numeral.decimal index ++ "]")
  | immediate {i : Immediate} : Shown (.immediate i) (Numeral.decimal i.value)
  | label {name : String} : Shown (.label name) name
  | datum {name : String} : Shown (.datum name) name
  | call {library routine : String} :
      Shown (.call library routine) (library ++ "." ++ routine)

/-- The text of an instruction: its mnemonic, and its operands separated by commas. -/
def instructionText (mnemonic : String) (operands : List String) : String :=
  if operands.isEmpty then mnemonic else mnemonic ++ " " ++ ", ".intercalate operands

namespace Analysis

theorem shown_of_relocationKind? {slot : Slot} {operand : Operand} {kind : RelocationKind}
    {target : String} (h : relocationKind? slot operand = some (kind, target)) :
    operand.Shown target := by
  unfold relocationKind? at h
  split at h
  · cases h
    exact .label
  · cases h
    exact .datum
  · cases h
    exact .call
  · cases h

theorem registerField_eq_ok {token : String} {index : Int} {field : Bytes}
    (h : registerField token index = .ok field) : ∃ set, RegisterSet.named? token = some set ∧
      0 ≤ index ∧ index < 256 ∧ field = [UInt8.ofNat set.code, UInt8.ofNat index.toNat] := by
  unfold registerField RegisterSet.named at h
  rcases hnamed : RegisterSet.named? token with _ | set
  · simp [hnamed] at h
  · simp only [hnamed, Bool.and_eq_true, decide_eq_true_eq] at h
    split_ifs at h with hindex
    exact ⟨set, rfl, hindex.1, hindex.2, (Except.ok.inj h).symm⟩

/-- The field of an operand takes the bytes of its slot. -/
theorem length_field {q : Placed} {file : Option String} {slot : Slot} {operand : Operand}
    {field : Bytes} (h : q.field file slot operand = .ok field) : field.length = slot.size := by
  unfold Placed.field at h
  split at h
  · obtain ⟨set, -, -, -, rfl⟩ := registerField_eq_ok h
    rfl
  · split_ifs at h
    exact Integer.length_of_pack (Steps.mapError_ok_iff.mp h)
  · split_ifs at h
    rw [← Except.ok.inj h]
    exact List.length_replicate

/-- **A field is shown as its operand**, unless it waits for a name. -/
theorem fieldText_of_field {q : Placed} {file : Option String} {slot : Slot} {operand : Operand}
    {field : Bytes} (names : Names) (whole : slot.isWhole = true)
    (hkind : relocationKind? slot operand = none) (h : q.field file slot operand = .ok field) :
    ∃ text, Disassembly.fieldText names slot field = .ok text ∧ operand.Shown text := by
  unfold Placed.field at h
  split at h
  · rename_i token index
    obtain ⟨set, hset, hlow, hhigh, rfl⟩ := registerField_eq_ok h
    obtain ⟨hcode, hfound⟩ := RegisterSet.ofCode?_code set (RegisterSet.mem_all_of_named? hset)
    have hbyte : (UInt8.ofNat set.code).toNat = set.code := UInt8.toNat_ofNat_of_lt' hcode
    have hindex : ((UInt8.ofNat index.toNat).toNat : Int) = index := by
      rw [UInt8.toNat_ofNat_of_lt' (by omega : index.toNat < 256)]
      omega
    refine ⟨_, ?_, .register hset⟩
    simp only [Disassembly.fieldText, Disassembly.registerText, hbyte, hfound, hindex,
      RegisterSet.registerText]
  · rename_i bits signed i
    split_ifs at h
    have hpack := Steps.mapError_ok_iff.mp h
    refine ⟨_, ?_, .immediate⟩
    simp only [Disassembly.fieldText,
      Integer.unpack_pack (Nat.pos_iff_ne_zero.mp (Slot.size_pos whole)) hpack]
  · rw [hkind] at h
    cases h

/-! ### Words -/

/-- What is told about relocations is right at the fields of operands in their slots, the first of
which is at a given offset. -/
def Tells (known : List (Int × String)) (offset : Int) : List (Slot × Operand) → Prop
  | [] => True
  | (slot, operand) :: rest =>
    known.lookup offset = (relocationKind? slot operand).map (·.2) ∧
      Tells known (offset + slot.size) rest

section Word
variable {q : Placed} {file : Option String} {names : Names}

/-- **The fields of a word are shown as its operands.** -/
theorem fieldTexts_of_fields {pairs : List (Slot × Operand)} {fields : List Bytes} (pad : Bytes)
    (hfields : List.Forall₂ (fun pair field => q.field file pair.1 pair.2 = .ok field) pairs fields)
    (whole : ∀ pair ∈ pairs, pair.1.isWhole = true) {offset : Int}
    (htells : Tells names.relocations offset pairs) :
    ∃ texts, List.Forall₂ Operand.Shown (pairs.map (·.2)) texts ∧
      Disassembly.fieldTexts names offset (fields.flatten ++ pad) (pairs.map (·.1)) =
        .ok texts := by
  induction hfields generalizing offset with
  | nil => exact ⟨[], .nil, rfl⟩
  | @cons pair field pairs fields hfield _ ih =>
    obtain ⟨slot, operand⟩ := pair
    obtain ⟨hhere, hrest⟩ := htells
    obtain ⟨hwhole, hwholes⟩ := List.forall_mem_cons.mp whole
    have hlength : field.length = slot.size := length_field hfield
    obtain ⟨texts, hshown, htexts⟩ := ih hwholes hrest
    have htake : ((field :: fields).flatten ++ pad).take slot.size = field := by
      rw [List.flatten_cons, List.append_assoc, ← hlength, List.take_left]
    have hdrop : ((field :: fields).flatten ++ pad).drop slot.size = fields.flatten ++ pad := by
      rw [List.flatten_cons, List.append_assoc, ← hlength, List.drop_left]
    rw [List.map_cons, List.map_cons, Disassembly.fieldTexts, htake, hdrop, htexts, hhere]
    -- A field that waits for a name shows the name; any other one shows its bytes.
    rcases hkind : relocationKind? slot operand with _ | ⟨kind, target⟩
    · obtain ⟨text, htext, hone⟩ := fieldText_of_field names hwhole hkind hfield
      refine ⟨text :: texts, .cons hone hshown, ?_⟩
      simp only [Option.map_none, htext, bind, Except.bind, pure, Except.pure]
    · exact ⟨target :: texts, .cons (shown_of_relocationKind? hkind) hshown, rfl⟩

/-- **How an instruction is shown**: as its mnemonic and its operands, in order. -/
def Placed.ShownAs (q : Placed) (text : String) : Prop :=
  ∃ texts, List.Forall₂ Operand.Shown q.operands texts ∧
    text = instructionText q.spec.mnemonic texts

theorem word_of_fields (hspec : q.spec ∈ Spec.all)
    (hlength : q.operands.length = q.spec.slots.length) {fields : List Bytes}
    (hfields : List.Forall₂ (fun pair field => q.field file pair.1 pair.2 = .ok field) q.pairs
      fields) (htells : Tells names.relocations (q.offset + 1) q.pairs) :
    ∃ text, Disassembly.word names q.offset (padWord (q.spec.opcode :: fields.flatten)) =
      .ok text ∧ q.ShownAs text := by
  have whole : ∀ pair ∈ q.pairs, pair.1.isWhole = true := fun pair hpair =>
    List.all_eq_true.mp (Spec.all_fit q.spec hspec).2 _ (List.of_mem_zip hpair).1
  have hslots : q.pairs.map (·.1) = q.spec.slots :=
    List.map_fst_zip (Nat.le_of_eq hlength.symm)
  have hoperands : q.pairs.map (·.2) = q.operands :=
    List.map_snd_zip (Nat.le_of_eq hlength)
  obtain ⟨texts, hshown, htexts⟩ := fieldTexts_of_fields
    (List.replicate (wordSize - (q.spec.opcode :: fields.flatten).length) 0) hfields whole htells
  rw [hslots] at htexts
  rw [hoperands] at hshown
  refine ⟨_, ?_, texts, hshown, rfl⟩
  rw [padWord, List.cons_append, Disassembly.word]
  simp only [Spec.ofOpcode?_opcode q.spec hspec]
  rw [htexts]
  rfl

theorem Placed.encode_eq_ok {word : Bytes} {relocations : List Relocation}
    (h : q.encode file = .ok (word, relocations)) : ∃ fields,
      q.operands.length = q.spec.slots.length ∧
      List.Forall₂ (fun pair field => q.field file pair.1 pair.2 = .ok field) q.pairs fields ∧
      word = padWord (q.spec.opcode :: fields.flatten) ∧
      relocations = relocationsAt (q.offset + 1) q.pairs := by
  unfold Placed.encode at h
  split_ifs at h with hlength
  obtain ⟨flat, hflat, h⟩ := Steps.bind_eq_ok.mp h
  obtain ⟨fields, hfields, hflat⟩ := Steps.bind_eq_ok.mp hflat
  obtain ⟨rfl, rfl⟩ := Prod.mk.inj (Except.ok.inj h)
  rw [← Except.ok.inj hflat]
  exact ⟨fields, not_not.mp hlength, Steps.mapM_eq_ok.mp hfields, rfl, rfl⟩

end Word

/-! ### Relocations -/

/-- Relocations as a disassembler is told of them. -/
def told (relocations : List Relocation) : List (Int × String) :=
  (relocations.map fun r => (r.offset, r.target)).reverse

theorem le_offset_of_mem_relocationsAt {pairs : List (Slot × Operand)} {offset : Int}
    {r : Relocation} (h : r ∈ relocationsAt offset pairs) : offset ≤ r.offset := by
  induction pairs generalizing offset with
  | nil => cases h
  | cons pair pairs ih =>
    rcases List.mem_append.mp h with h | h
    · split at h
      · exact Int.le_of_eq (congrArg Relocation.offset (List.mem_singleton.mp h)).symm
      · cases h
    · have := ih h
      omega

theorem lookup_told_append (early late : List Relocation) (v : Int) :
    (told (early ++ late)).lookup v = ((told late).lookup v).or ((told early).lookup v) := by
  rw [told, List.map_append, List.reverse_append, List.lookup_append]
  rfl

theorem lookup_told_eq_none {relocations : List Relocation} {v : Int}
    (h : ∀ r ∈ relocations, r.offset ≠ v) : (told relocations).lookup v = none := by
  refine List.lookup_eq_none_iff.mpr fun x hx => ?_
  obtain ⟨r, hr, rfl⟩ := List.mem_map.mp (List.mem_reverse.mp hx)
  simpa using (h r hr).symm

/-- **The relocations of an instruction** tell of its fields. -/
theorem tells_relocationsAt {pairs : List (Slot × Operand)}
    (whole : ∀ pair ∈ pairs, pair.1.isWhole = true) (offset : Int) :
    Tells (told (relocationsAt offset pairs)) offset pairs := by
  suffices key : ∀ (early : List Relocation) (offset : Int), (∀ r ∈ early, r.offset < offset) →
      Tells (told (early ++ relocationsAt offset pairs)) offset pairs from
    key [] offset (by simp)
  induction pairs with
  | nil => exact fun _ _ _ => trivial
  | cons pair pairs ih =>
    intro early offset hearly
    obtain ⟨slot, operand⟩ := pair
    obtain ⟨hwhole, hwholes⟩ := List.forall_mem_cons.mp whole
    have hsize : 0 < slot.size := Slot.size_pos hwhole
    -- What comes before the field and what comes behind it is at other offsets.
    have hbefore : (told early).lookup offset = none :=
      lookup_told_eq_none fun r hr => Int.ne_of_lt (hearly r hr)
    have hbehind : (told (relocationsAt (offset + slot.size) pairs)).lookup offset = none :=
      lookup_told_eq_none fun r hr => by
        have := le_offset_of_mem_relocationsAt hr
        omega
    rcases hkind : relocationKind? slot operand with _ | ⟨kind, target⟩
    · simp only [relocationsAt, hkind, List.nil_append]
      refine ⟨?_, ih hwholes early _ fun r hr => ?_⟩
      · rw [lookup_told_append, hbehind, hbefore, hkind]
        rfl
      · have := hearly r hr
        omega
    · simp only [relocationsAt, hkind]
      rw [← List.append_assoc]
      refine ⟨?_, ih hwholes _ _ fun r hr => ?_⟩
      · rw [lookup_told_append, lookup_told_append, hbehind, hbefore, hkind]
        simp [told]
      · rcases List.mem_append.mp hr with hr | hr
        · have := hearly r hr
          omega
        · rw [List.mem_singleton.mp hr]
          simp only
          omega

/-- **The word of an instruction is shown as its mnemonic and its operands**, whatever else is
known. -/
theorem word_of_encode {q : Placed} {file : Option String} {names : Names} {word : Bytes}
    {relocations : List Relocation} (hspec : q.spec ∈ Spec.all)
    (h : q.encode file = .ok (word, relocations)) (hnames : names.relocations = told relocations) :
    ∃ text, Disassembly.word names q.offset word = .ok text ∧ q.ShownAs text := by
  obtain ⟨fields, hlength, hfields, rfl, rfl⟩ := Placed.encode_eq_ok h
  refine word_of_fields hspec hlength hfields ?_
  rw [hnames]
  exact tells_relocationsAt (fun pair hpair => List.all_eq_true.mp (Spec.all_fit q.spec hspec).2 _
    (List.of_mem_zip hpair).1) _

/-! ### Code -/

theorem tells_of_cells {known : List (Int × String)} {pairs : List (Slot × Operand)} {place : Nat}
    (h : ∀ c ∈ cellsAt place pairs,
      known.lookup (c.place : Int) = (relocationKind? c.slot c.operand).map (·.2)) :
    Tells known place pairs := by
  induction pairs generalizing place with
  | nil => trivial
  | cons pair pairs ih =>
    obtain ⟨slot, operand⟩ := pair
    rw [cellsAt, List.forall_mem_cons] at h
    refine ⟨h.1, ?_⟩
    have hrest := ih h.2
    rwa [Int.natCast_add] at hrest

/-- Among cells one behind the other, each is told of by its own relocation. -/
theorem lookup_told_of_cell {cells : List Cell} (h : cells.Pairwise Cell.Before)
    (hsize : ∀ c ∈ cells, 0 < c.slot.size) {c : Cell} (hc : c ∈ cells) :
    (told (cells.filterMap Cell.relocation?)).lookup (c.place : Int) =
      (relocationKind? c.slot c.operand).map (·.2) := by
  obtain ⟨early, late, rfl⟩ := List.append_of_mem hc
  obtain ⟨-, hlate, hearly⟩ := List.pairwise_append.mp h
  have hpos := hsize c hc
  have hbefore : (told (early.filterMap Cell.relocation?)).lookup (c.place : Int) = none := by
    refine lookup_told_eq_none fun r hr => ?_
    obtain ⟨d, hd, hdr⟩ := List.mem_filterMap.mp hr
    have hdc := hearly d hd c List.mem_cons_self
    have hdpos := hsize d (List.mem_append_left _ hd)
    rw [(relocation?_place hdr).1]
    unfold Cell.Before at hdc
    omega
  have hbehind : (told (late.filterMap Cell.relocation?)).lookup (c.place : Int) = none := by
    refine lookup_told_eq_none fun r hr => ?_
    obtain ⟨d, hd, hdr⟩ := List.mem_filterMap.mp hr
    have hcd := (List.pairwise_cons.mp hlate).1 d hd
    rw [(relocation?_place hdr).1]
    unfold Cell.Before at hcd
    omega
  rw [List.filterMap_append, lookup_told_append, hbefore, Option.or_none]
  rcases hkind : relocationKind? c.slot c.operand with _ | ⟨kind, target⟩
  · rw [List.filterMap_cons_none (by simp [Cell.relocation?, hkind]), hbehind]
    rfl
  · rw [List.filterMap_cons_some (b := ⟨c.place, kind, target⟩)
      (by simp [Cell.relocation?, hkind]), ← List.singleton_append, lookup_told_append, hbehind]
    simp [told]

theorem length_chunks {α : Type} (size count : Nat) (xs : List α) :
    (Bytes.chunks size count xs).length = count := by
  induction count generalizing xs with
  | zero => rfl
  | succ count ih => rw [Bytes.chunks, List.length_cons, ih]

theorem getElem?_chunks {α : Type} (size count : Nat) (xs : List α) (k : Nat) :
    (Bytes.chunks size count xs)[k]? =
      if k < count then some ((xs.drop (size * k)).take size) else none := by
  induction count generalizing xs k with
  | zero => simp [Bytes.chunks]
  | succ count ih =>
    cases k with
    | zero => simp [Bytes.chunks]
    | succ k =>
      rw [Bytes.chunks, List.getElem?_cons_succ, ih, List.drop_drop, Nat.mul_succ,
        Nat.add_comm size]
      simp only [Nat.add_lt_add_iff_right]

theorem Accepted.sound_of_code {p : Program} {a : Analysis} (h : Accepted p a) {k : Nat}
    {q : Placed} (hq : a.code[k]? = some q) :
    ∃ i, p.instructions[k]? = some i ∧ Sound a.symbols a.mask (wordSize * k) i q := by
  obtain ⟨x, hx, hsound⟩ := Steps.getElem?_of_forall₂ h.code.flip hq
  rw [List.getElem?_zipIdx, Option.map_eq_some_iff] at hx
  obtain ⟨i, hi, rfl⟩ := hx
  rw [Nat.zero_add] at hsound
  exact ⟨i, hi, hsound⟩

section Lines
variable {p : Program} {a : Analysis} {o : Object}

theorem Accepted.size_pos_of_cells (ha : Accepted p a) :
    ∀ c ∈ a.code.flatMap Placed.cells, 0 < c.slot.size := by
  intro c hc
  obtain ⟨q, hq, hc⟩ := List.mem_flatMap.mp hc
  obtain ⟨k, hk⟩ := List.getElem?_of_mem hq
  obtain ⟨i, -, hsound⟩ := ha.sound_of_code hk
  have hpair : (c.slot, c.operand) ∈ q.pairs := by
    rw [← cellsAt_pairs (q.offset.toNat + 1) q.pairs]
    exact List.mem_map.mpr ⟨c, hc, rfl⟩
  exact Slot.size_pos (hsound.whole (List.of_mem_zip hpair).1)

/-- The text of one word shows its instruction. -/
theorem Encoded.exists_word (ha : Accepted p a) (h : Encoded a o) {names : Names}
    (hnames : names.relocations = told o.relocations) {k : Nat} {q : Placed}
    (hq : a.code[k]? = some q) : ∃ text, q.ShownAs text ∧
      Disassembly.word names (wordSize * k : Nat) (slice o.code (wordSize * k) wordSize) =
        .ok text := by
  obtain ⟨i, -, hsound⟩ := ha.sound_of_code hq
  obtain ⟨fields, hfields, hslice⟩ := h.word k q hq
  have htells : Tells names.relocations (q.offset + 1) q.pairs := by
    have hplace : q.offset + 1 = ((q.offset.toNat + 1 : Nat) : Int) := by
      rw [hsound.offset]
      rfl
    rw [hplace, hnames, h.relocations]
    refine tells_of_cells fun c hc => ?_
    have hmem : c ∈ a.code.flatMap Placed.cells :=
      List.mem_flatMap.mpr ⟨q, List.mem_of_getElem? hq, hc⟩
    exact lookup_told_of_cell (cells_pairwise ha.code).1 ha.size_pos_of_cells hmem
  obtain ⟨text, htext, hshown⟩ := word_of_fields (Spec.mem_all_of_named? hsound.spec)
    hsound.length_operands (hfields.imp fun _ _ hf => hf.1) htells
  refine ⟨text, hshown, ?_⟩
  rw [hslice, ← hsound.offset, htext]

/-- As many words as instructions. -/
theorem Encoded.words_eq (h : Encoded a o) :
    Disassembly.words o.code = Bytes.chunks wordSize a.code.length o.code := by
  have hcount : (o.code.length + wordSize - 1) / wordSize = a.code.length := by
    rw [h.length_code]
    simp only [wordSize]
    omega
  rw [Disassembly.words, hcount]

/-- The words of the code, one for each instruction. -/
theorem Encoded.getElem?_words (h : Encoded a o) {k : Nat} (hk : k < a.code.length) :
    (Disassembly.words o.code)[k]? = some (slice o.code (wordSize * k) wordSize) := by
  rw [h.words_eq, getElem?_chunks, if_pos hk]
  rfl

/-- **The words of an object are shown as its instructions**, one line each. -/
theorem Encoded.exists_lines (ha : Accepted p a) (h : Encoded a o) {names : Names}
    (hnames : names.relocations = told o.relocations) :
    ∃ ls, Disassembly.lines names o.code = .ok ls ∧ ls.length = a.code.length ∧
      ∀ (k : Nat) (q : Placed), a.code[k]? = some q →
        ∃ l : Disassembly.Line, ls[k]? = some l ∧ q.ShownAs l.text := by
  have hall : ∀ x ∈ (Disassembly.words o.code).zipIdx, ∃ l : Disassembly.Line,
      Disassembly.word names (wordSize * x.2 : Nat) x.1 = .ok l.text ∧
        l = ⟨wordSize * x.2, x.1, l.text⟩ ∧ ∀ q, a.code[x.2]? = some q → q.ShownAs l.text := by
    rintro ⟨bytes, k⟩ hx
    have hbytes := List.mem_zipIdx_iff_getElem?.mp hx
    have hk : k < a.code.length := by
      have hlt := (List.getElem?_eq_some_iff.mp hbytes).1
      rwa [h.words_eq, length_chunks] at hlt
    dsimp only at hbytes ⊢
    rw [h.getElem?_words hk] at hbytes
    obtain rfl := Option.some.inj hbytes
    obtain ⟨text, hshown, htext⟩ := h.exists_word ha hnames (List.getElem?_eq_getElem hk)
    refine ⟨⟨_, _, text⟩, htext, rfl, fun q hq => ?_⟩
    rw [List.getElem?_eq_getElem hk] at hq
    rwa [← Option.some.inj hq]
  obtain ⟨ls, hls⟩ := Steps.exists_forall₂ hall
  have hwhole : ¬ o.code.length % wordSize ≠ 0 := by
    rw [h.length_code, Nat.mul_mod_right]
    exact not_not.mpr rfl
  refine ⟨ls, ?_, ?_, fun k q hq => ?_⟩
  · rw [Disassembly.lines, if_neg hwhole]
    refine Steps.mapM_eq_ok.mpr (hls.imp ?_)
    rintro ⟨bytes, k⟩ l ⟨htext, hl, -⟩
    exact Steps.bind_eq_ok.mpr ⟨l.text, htext, congrArg Except.ok hl.symm⟩
  · rw [← hls.length_eq, List.length_zipIdx, h.words_eq, length_chunks]
  · have hk := (List.getElem?_eq_some_iff.mp hq).1
    have hx : (Disassembly.words o.code).zipIdx[k]? =
        some (slice o.code (wordSize * k) wordSize, k) := by
      rw [List.getElem?_zipIdx, h.getElem?_words hk, Nat.zero_add]
      rfl
    obtain ⟨l, hl, -, -, hshown⟩ := Steps.getElem?_of_forall₂ hls hx
    exact ⟨l, hl, hshown q hq⟩

end Lines

end Analysis

end AluVM
