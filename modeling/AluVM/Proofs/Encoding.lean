import AluVM.Proofs.Data
import AluVM.Proofs.Fields

/-! # Words, cells and relocations

A word is its opcode followed by cells, one for each slot of its template. Cells are the common
ground of encoder and linker: a cell that holds a name has a relocation, whose field is the cell
itself, and all other cells are final when the word is encoded.

* `Sound.encode`: an instruction of an accepted program has a word and is encoded.
* `Encoded`: the object of an accepted program is the concatenation of its words, and its
  relocations are those of its cells, in the order of the code. Every accepted program has such
  an object (`exists_encode`). -/

namespace AluVM

/-- Whether a slot holds whole bytes. -/
def Slot.isWhole : Slot → Bool
  | immediate bits _ => bits ≠ 0 && bits % 8 = 0
  | _ => true

/-- A template fits its word, and its slots hold whole bytes. -/
theorem Spec.all_fit : ∀ s ∈ Spec.all, s.operandBytes < wordSize ∧ s.slots.all Slot.isWhole := by
  decide

theorem Spec.slot_size : ∀ s ∈ Spec.all, ∀ slot ∈ s.slots, slot.size < wordSize := by
  decide +kernel

theorem Spec.mem_all_of_named? {mnemonic : String} {s : Spec} (h : Spec.named? mnemonic = some s) :
    s ∈ Spec.all := by
  unfold Spec.named? at h
  exact List.mem_of_find?_eq_some h

/-- Every set is found under its own name, and its indices are bytes. -/
theorem RegisterSet.all_named : ∀ s ∈ RegisterSet.all,
    RegisterSet.named? s.name = some s ∧ s.count ≤ 256 := by
  decide +kernel

theorem RegisterSet.mem_all_of_named? {token : String} {s : RegisterSet}
    (h : RegisterSet.named? token = some s) : s ∈ RegisterSet.all := by
  unfold RegisterSet.named? at h
  exact List.mem_of_find?_eq_some h

namespace Analysis

open Syntax (Operand Instruction Program Immediate)

/-! ### Cells -/

/-- A slot with its operand at its place in the code. -/
structure Cell where
  place : Nat
  slot : Slot
  operand : Operand

/-- The cells of operands in their slots, the first of which is at a given place. -/
def cellsAt (place : Nat) : List (Slot × Operand) → List Cell
  | [] => []
  | (slot, operand) :: rest => ⟨place, slot, operand⟩ :: cellsAt (place + slot.size) rest

/-- The bytes of slots. -/
def roomOfSlots (pairs : List (Slot × Operand)) : Nat := (pairs.map (·.1.size)).sum

/-- The relocation of a cell that holds a name. -/
def Cell.relocation? (c : Cell) : Option Relocation :=
  (relocationKind? c.slot c.operand).map fun (kind, target) => ⟨c.place, kind, target⟩

/-- The first cell ends where the second one starts, or before. -/
def Cell.Before (c d : Cell) : Prop := c.place + c.slot.size ≤ d.place

theorem relocationsAt_eq : ∀ (place : Nat) (pairs : List (Slot × Operand)),
    relocationsAt place pairs = (cellsAt place pairs).filterMap Cell.relocation?
  | _, [] => rfl
  | place, (slot, operand) :: rest => by
    have ih : relocationsAt ((place : Int) + (slot.size : Int)) rest =
        (cellsAt (place + slot.size) rest).filterMap Cell.relocation? := by
      rw [← relocationsAt_eq (place + slot.size) rest, Int.natCast_add]
    rcases hk : relocationKind? slot operand with _ | ⟨kind, target⟩ <;>
      simp [relocationsAt, cellsAt, Cell.relocation?, hk, ih]

theorem cellsAt_pairs : ∀ (place : Nat) (pairs : List (Slot × Operand)),
    (cellsAt place pairs).map (fun c => (c.slot, c.operand)) = pairs
  | _, [] => rfl
  | place, (slot, operand) :: rest =>
    congrArg ((slot, operand) :: ·) (cellsAt_pairs (place + slot.size) rest)

theorem mem_cellsAt : ∀ {pairs : List (Slot × Operand)} {place : Nat} {c : Cell},
    c ∈ cellsAt place pairs →
      place ≤ c.place ∧ c.place + c.slot.size ≤ place + roomOfSlots pairs
  | (slot, operand) :: rest, place, c, h => by
    have hroom : roomOfSlots ((slot, operand) :: rest) = slot.size + roomOfSlots rest := rfl
    rcases List.mem_cons.mp h with rfl | h
    · simp only [hroom]
      omega
    · have := mem_cellsAt h
      omega

theorem cellsAt_pairwise : ∀ (place : Nat) (pairs : List (Slot × Operand)),
    (cellsAt place pairs).Pairwise Cell.Before
  | _, [] => .nil
  | place, (slot, _) :: rest =>
    .cons (fun _ hd => (mem_cellsAt hd).1) (cellsAt_pairwise (place + slot.size) rest)

/-- The slice of all cells is that of each of them, one behind the other. -/
theorem slice_cellsAt (code : Bytes) : ∀ (place : Nat) (pairs : List (Slot × Operand)),
    slice code place (roomOfSlots pairs) =
      ((cellsAt place pairs).map fun c => slice code c.place c.slot.size).flatten
  | _, [] => by simp [roomOfSlots, slice, cellsAt]
  | place, (slot, operand) :: rest => by
    have hroom : roomOfSlots ((slot, operand) :: rest) = slot.size + roomOfSlots rest := rfl
    rw [hroom, slice_split, slice_cellsAt code (place + slot.size) rest]
    rfl

/-- Fields of the sizes of their slots are the slices of the cells. -/
theorem slices_eq_of_flatten {code : Bytes} : ∀ {place : Nat} {pairs : List (Slot × Operand)}
    {fields : List Bytes}, place + roomOfSlots pairs ≤ code.length →
    List.Forall₂ (fun pair (field : Bytes) => field.length = pair.1.size) pairs fields →
      slice code place (roomOfSlots pairs) = fields.flatten →
      (cellsAt place pairs).map (fun c => slice code c.place c.slot.size) = fields
  | _, [], _, _, .nil, _ => rfl
  | place, (slot, operand) :: rest, field :: fields, hin, .cons hfield hfields, h => by
    have hroom : roomOfSlots ((slot, operand) :: rest) = slot.size + roomOfSlots rest := rfl
    rw [hroom] at hin
    rw [hroom, slice_split, List.flatten_cons] at h
    obtain ⟨hfirst, hrest⟩ := List.append_inj h
      ((length_slice (by omega)).trans (hfield : field.length = slot.size).symm)
    rw [cellsAt, List.map_cons, hfirst, slices_eq_of_flatten (by omega) hfields hrest]

/-! ### Fields -/

theorem relocationKind?_width {slot : Slot} {operand : Operand} {kind : RelocationKind}
    {target : String} (h : relocationKind? slot operand = some (kind, target)) :
    slot.size = kind.width := by
  unfold relocationKind? at h
  split at h <;> cases h <;> rfl

theorem registerField_eq (q : Placed) (file : Option String) (banks : List Bank)
    (sets : List String) {token : String} {index : Int} {set : RegisterSet}
    (named : RegisterSet.named? token = some set) (inside : set.hasIndex index = true) :
    q.field file (.register banks sets) (.register set.name index) =
      .ok [UInt8.ofNat set.code, UInt8.ofNat index.toNat] := by
  obtain ⟨hself, hcount⟩ := RegisterSet.all_named set (RegisterSet.mem_all_of_named? named)
  simp only [RegisterSet.hasIndex, Bool.and_eq_true, decide_eq_true_eq] at inside
  simp only [Placed.field, registerField, RegisterSet.named, hself]
  rw [if_pos]
  simp only [Bool.and_eq_true, decide_eq_true_eq]
  omega

theorem immediateField_eq (q : Placed) (file : Option String) {bits : Nat} {signed : Bool}
    {i : Immediate} (whole : (Slot.immediate bits signed).isWhole = true)
    (fits : Integer.fits i.value bits signed = true) : ∃ bytes,
      Integer.pack i.value (Slot.immediate bits signed).size signed = .ok bytes ∧
      q.field file (.immediate bits signed) (.immediate i) = .ok bytes ∧
      bytes.length = (Slot.immediate bits signed).size := by
  simp only [Slot.isWhole, Bool.and_eq_true, decide_eq_true_eq, ne_eq] at whole
  have hbits : 8 * (Slot.immediate bits signed).size = bits := by
    simp only [Slot.size]
    omega
  have hsize : (Slot.immediate bits signed).size ≠ 0 := by omega
  have hpack := Integer.pack_of_fits hsize (by rw [hbits]; exact fits)
  refine ⟨_, hpack, ?_, Bytes.length_ofNat _ _⟩
  simp only [Placed.field, fits, if_true, hpack, Except.mapError]

theorem nameField_eq (q : Placed) (file : Option String) {slot : Slot} {operand : Operand}
    {kind : RelocationKind} {target : String}
    (h : relocationKind? slot operand = some (kind, target)) :
    q.field file slot operand = .ok (List.replicate slot.size 0) := by
  unfold Placed.field
  split
  · cases h
  · cases h
  · rw [h]
    rfl

/-- A classified operand has a field of the size of its slot. -/
theorem Classified.field {t : SymbolTable} {slot : Slot} {operand meaning : Operand}
    (h : Classified t slot operand meaning) (whole : slot.isWhole = true) (q : Placed)
    (file : Option String) :
    ∃ bytes, q.field file slot meaning = .ok bytes ∧ bytes.length = slot.size := by
  cases h with
  | @register banks sets token index set named bank allowed inside =>
    exact ⟨_, registerField_eq q file banks sets named inside, rfl⟩
  | @literal bits signed i fits =>
    obtain ⟨bytes, -, hfield⟩ := immediateField_eq q file (i := ⟨i.value, i.text, bits⟩) whole fits
    exact ⟨bytes, hfield⟩
  | @constant bits signed name s declared fits =>
    obtain ⟨bytes, -, hfield⟩ :=
      immediateField_eq q file (i := ⟨s.value.getD 0, name, bits⟩) whole fits
    exact ⟨bytes, hfield⟩
  | label declared => exact ⟨_, nameField_eq q file rfl, List.length_replicate⟩
  | datum declared => exact ⟨_, nameField_eq q file rfl, List.length_replicate⟩
  | call => exact ⟨_, nameField_eq q file rfl, List.length_replicate⟩

/-! ### Words -/

/-- The operands of a placed instruction in their slots. -/
def Placed.pairs (q : Placed) : List (Slot × Operand) := q.spec.slots.zip q.operands

/-- The cells of a placed instruction. -/
def Placed.cells (q : Placed) : List Cell := cellsAt (q.offset.toNat + 1) q.pairs

/-- The operands of a source beside the cells of their meanings. -/
theorem forall₂_zip_zip {α β γ : Type} {R : α × β → γ → Prop} : ∀ {xs : List α} {ys : List β}
    {zs : List γ}, List.Forall₂ R (xs.zip ys) zs → xs.length = ys.length →
      List.Forall₂ (fun x z => z.1 = x.2 ∧ R x z.2) (xs.zip ys) (ys.zip zs)
  | [], [], _, .nil, _ => .nil
  | _ :: _, _ :: _, _ :: _, .cons h hs, hlen =>
    .cons ⟨rfl, h⟩ (forall₂_zip_zip hs (Nat.succ.inj hlen))

section Word
variable {t : SymbolTable} {mask : Mask} {offset : Nat} {i : Instruction} {q : Placed}

theorem Sound.pairs (h : Sound t mask offset i q) :
    List.Forall₂ (fun pair pair' => pair'.1 = pair.2 ∧ Classified t pair.2 pair.1 pair'.2)
      (i.operands.zip q.spec.slots) q.pairs :=
  forall₂_zip_zip h.operands h.count

theorem Sound.length_operands (h : Sound t mask offset i q) :
    q.operands.length = q.spec.slots.length := by
  have := h.operands.length_eq
  rw [List.length_zip, h.count, Nat.min_self] at this
  exact this.symm

theorem Sound.roomOfSlots_pairs (h : Sound t mask offset i q) :
    roomOfSlots q.pairs = q.spec.operandBytes := by
  have hmap : q.pairs.map (·.1.size) = q.spec.slots.map Slot.size := by
    rw [Placed.pairs, show (fun x : Slot × Operand => x.1.size) = Slot.size ∘ Prod.fst from rfl,
      ← List.map_map, List.map_fst_zip (Nat.le_of_eq h.length_operands.symm)]
  rw [roomOfSlots, hmap, Spec.operandBytes, List.sum_eq_foldr]

theorem Sound.operandBytes_lt (h : Sound t mask offset i q) : q.spec.operandBytes < wordSize :=
  (Spec.all_fit q.spec (Spec.mem_all_of_named? h.spec)).1

theorem Sound.whole (h : Sound t mask offset i q) {slot : Slot} (hs : slot ∈ q.spec.slots) :
    slot.isWhole = true :=
  List.all_eq_true.mp (Spec.all_fit q.spec (Spec.mem_all_of_named? h.spec)).2 slot hs

/-- **An instruction of an accepted program is encoded**, whatever the source is called. -/
theorem Sound.encode (h : Sound t mask offset i q) (file : Option String) : ∃ fields,
    List.Forall₂ (fun pair field => q.field file pair.1 pair.2 = .ok field ∧
      field.length = pair.1.size) q.pairs fields ∧
    q.encode file =
      .ok (padWord (q.spec.opcode :: fields.flatten), q.cells.filterMap Cell.relocation?) := by
  have hall : ∀ pair ∈ q.pairs, ∃ field, q.field file pair.1 pair.2 = .ok field ∧
      field.length = pair.1.size := by
    intro pair hpair
    obtain ⟨source, -, hslot, hclass⟩ := Steps.exists_mem_left h.pairs pair hpair
    rw [← hslot] at hclass
    exact hclass.field (h.whole (List.of_mem_zip hpair).1) q file
  obtain ⟨fields, hfields⟩ := Steps.exists_forall₂ hall
  refine ⟨fields, hfields, ?_⟩
  have hmap : q.fields file (q.spec.slots.zip q.operands) = .ok fields.flatten :=
    Steps.bind_eq_ok.mpr ⟨fields, Steps.mapM_eq_ok.mpr (hfields.imp fun _ _ hf => hf.1), rfl⟩
  have hplace : q.offset + 1 = ((q.offset.toNat + 1 : Nat) : Int) := by
    rw [h.offset]
    rfl
  simp only [Placed.encode, h.length_operands, ne_eq, not_true_eq_false, if_false, hmap,
    bind, Except.bind, pure, Except.pure, hplace, relocationsAt_eq, Placed.cells,
    Placed.pairs]

theorem Sound.mem_cells (h : Sound t mask offset i q) {c : Cell} (hc : c ∈ q.cells) :
    offset < c.place ∧ c.place + c.slot.size ≤ offset + wordSize := by
  have hbounds := mem_cellsAt hc
  have hlt := h.operandBytes_lt
  rw [h.roomOfSlots_pairs, h.offset] at hbounds
  simp only [Int.toNat_natCast] at hbounds
  omega

theorem Sound.length_word (h : Sound t mask offset i q) {file : Option String}
    {fields : List Bytes} (hfields : List.Forall₂ (fun pair field =>
      q.field file pair.1 pair.2 = .ok field ∧ field.length = pair.1.size) q.pairs fields) :
    fields.flatten.length = q.spec.operandBytes ∧
      (padWord (q.spec.opcode :: fields.flatten)).length = wordSize := by
  have hlen : fields.flatten.length = q.spec.operandBytes := by
    rw [← h.roomOfSlots_pairs, roomOfSlots, List.length_flatten]
    congr 1
    have hsizes : List.Forall₂ (fun pair (field : Bytes) => field.length = pair.1.size) q.pairs
        fields := hfields.imp fun _ _ hf => hf.2
    refine List.forall₂_eq_eq_eq ▸ ?_
    rw [List.forall₂_map_left_iff, List.forall₂_map_right_iff]
    exact hsizes.flip
  have := h.operandBytes_lt
  refine ⟨hlen, ?_⟩
  simp only [padWord, List.length_append, List.length_cons, hlen, List.length_replicate]
  omega

end Word

/-! ### Code -/

/-- Instructions one word behind the other, from the word of number `start` on. -/
abbrev SoundFrom (t : SymbolTable) (mask : Mask) (start : Nat) (is : List Instruction)
    (qs : List Placed) : Prop :=
  List.Forall₂ (fun x q => Sound t mask (wordSize * x.2) x.1 q) (is.zipIdx start) qs

theorem cells_pairwise {t : SymbolTable} {mask : Mask} : ∀ {is : List Instruction}
    {start : Nat} {qs : List Placed}, SoundFrom t mask start is qs →
      (qs.flatMap Placed.cells).Pairwise Cell.Before ∧
      ∀ c ∈ qs.flatMap Placed.cells, wordSize * start < c.place
  | [], _, _, .nil => ⟨.nil, by simp⟩
  | i :: is, start, q :: qs, .cons hq hqs => by
    obtain ⟨hrest, hlow⟩ := cells_pairwise hqs
    rw [List.flatMap_cons]
    refine ⟨List.pairwise_append.mpr ⟨cellsAt_pairwise _ _, hrest, fun c hc d hd => ?_⟩, ?_⟩
    · have hc : wordSize * start < c.place ∧ c.place + c.slot.size ≤ wordSize * start + wordSize :=
        hq.mem_cells hc
      have hd := hlow d hd
      rw [Nat.mul_add] at hd
      simp only [Cell.Before]
      omega
    · intro c hc
      rcases List.mem_append.mp hc with hc | hc
      · exact (hq.mem_cells hc).1
      · have := hlow c hc
        rw [Nat.mul_add] at this
        omega

/-- Words one behind the other fill their code. -/
theorem layWords_consecutive (size : Nat) : ∀ {start : Nat} {words : List (Int × Bytes)},
    List.Forall₂ (fun k w => w.1 = ((wordSize * k : Nat) : Int) ∧ w.2.length = wordSize)
      (List.range' start words.length) words →
    size = wordSize * (start + words.length) →
    layWords size (wordSize * start) words = (words.map (·.2)).flatten
  | start, [], _, hsize => by
    simp [layWords, hsize]
  | start, (offset, word) :: words, h, hsize => by
    rw [List.length_cons, List.range'_succ] at h
    obtain ⟨⟨(hoffset : offset = _), (hword : word.length = wordSize)⟩, hrest⟩ :=
      List.forall₂_cons.mp h
    have hnext : wordSize * start + wordSize = wordSize * (start + 1) := rfl
    rw [List.length_cons] at hsize
    have hle : wordSize * start ≤ size := by
      rw [hsize]
      exact Nat.mul_le_mul_left _ (by omega)
    have hplace : min offset.toNat (max size (wordSize * start)) = wordSize * start := by
      simp only [hoffset, Int.toNat_natCast]
      omega
    simp only [layWords, hplace, Nat.sub_self, List.replicate_zero, List.nil_append,
      Nat.max_self, List.map_cons, List.flatten_cons]
    rw [hword, hnext,
      layWords_consecutive size hrest (by rw [hsize]; congr 1; omega)]

theorem length_flatten_words {size : Nat} {words : List Bytes} (h : ∀ w ∈ words, w.length = size) :
    words.flatten.length = size * words.length := by
  rw [List.length_flatten, List.map_eq_replicate_iff.mpr h, List.sum_replicate_nat, Nat.mul_comm]

/-- A word of code that is made up of words. -/
theorem slice_flatten : ∀ {words : List Bytes} {k : Nat} {word : Bytes},
    (∀ w ∈ words, w.length = wordSize) → words[k]? = some word →
      slice words.flatten (wordSize * k) wordSize = word
  | w :: words, 0, word, hlen, h => by
    cases h
    have hw := hlen w List.mem_cons_self
    rw [slice, Nat.mul_zero, List.drop_zero, List.flatten_cons, List.take_append_of_le_length hw.ge,
      List.take_of_length_le hw.le]
  | w :: words, k + 1, word, hlen, h => by
    have hw := hlen w List.mem_cons_self
    rw [List.flatten_cons, Nat.mul_add, Nat.mul_one, Nat.add_comm]
    conv_lhs => rw [← hw]
    rw [slice_append_right, hw]
    exact slice_flatten (fun w' hw' => hlen w' (List.mem_cons_of_mem w hw')) h

/-! ### Objects -/

/-- **The object of an accepted program.** -/
structure Encoded (a : Analysis) (o : Object) : Prop where
  length_code : o.code.length = wordSize * a.code.length
  word : ∀ k q, a.code[k]? = some q → ∃ fields,
    List.Forall₂ (fun pair field => q.field a.file pair.1 pair.2 = .ok field ∧
      field.length = pair.1.size) q.pairs fields ∧
    slice o.code (wordSize * k) wordSize = padWord (q.spec.opcode :: fields.flatten)
  relocations : o.relocations = (a.code.flatMap Placed.cells).filterMap Cell.relocation?
  length_data : o.data.length = (a.data.map (·.size)).sum
  mask : o.mask = a.mask
  exports : o.exports = objectSymbols (a.symbols.ofKinds [.exportedLabel])
  symbols : o.symbols = objectSymbols (a.symbols.ofKinds [.localLabel, .dataSymbol])
  libraries : o.libraries = a.libraries.map fun (name, id) => ⟨name, id⟩

/-- What the encoder makes of one instruction: its offset, its word and its relocations. -/
def Spelled (file : Option String) (q : Placed) (x : Int × Bytes × List Relocation) : Prop :=
  ∃ fields, List.Forall₂ (fun pair field => q.field file pair.1 pair.2 = .ok field ∧
      field.length = pair.1.size) q.pairs fields ∧
    x = (q.offset, padWord (q.spec.opcode :: fields.flatten), q.cells.filterMap Cell.relocation?)

theorem mapM_encode {t : SymbolTable} {mask : Mask} {start : Nat} {is : List Instruction}
    {qs : List Placed} (h : SoundFrom t mask start is qs) (file : Option String) : ∃ words,
    qs.mapM (fun q => do
      let (word, relocations) ← q.encode file
      return (q.offset, word, relocations)) = .ok words ∧ List.Forall₂ (Spelled file) qs words := by
  have hall : ∀ q ∈ qs, ∃ x, (do
      let (word, relocations) ← q.encode file
      return (q.offset, word, relocations)) = .ok x ∧ Spelled file q x := by
    intro q hq
    obtain ⟨x, -, hsound⟩ := Steps.exists_mem_left h q hq
    obtain ⟨fields, hfields, hencode⟩ := hsound.encode file
    exact ⟨_, by rw [hencode]; rfl, fields, hfields, rfl⟩
  obtain ⟨words, hwords⟩ := Steps.exists_forall₂ hall
  exact ⟨words, Steps.mapM_eq_ok.mpr (hwords.imp fun _ _ hx => hx.1),
    hwords.imp fun _ _ hx => hx.2⟩

theorem spelled_consecutive {t : SymbolTable} {mask : Mask} {file : Option String} :
    ∀ {is : List Instruction} {start : Nat} {qs : List Placed}
      {words : List (Int × Bytes × List Relocation)}, SoundFrom t mask start is qs →
    List.Forall₂ (Spelled file) qs words →
    List.Forall₂ (fun k w => w.1 = ((wordSize * k : Nat) : Int) ∧ w.2.length = wordSize)
      (List.range' start words.length) (words.map fun (offset, word, _) => (offset, word))
  | [], _, _, _, .nil, .nil => .nil
  | i :: is, start, q :: qs, x :: words, .cons hq hqs, .cons hx hwords => by
    obtain ⟨fields, hfields, rfl⟩ := hx
    rw [List.length_cons, List.range'_succ]
    exact .cons ⟨hq.offset, (hq.length_word hfields).2⟩ (spelled_consecutive hqs hwords)

theorem spelled_relocations {file : Option String} {qs : List Placed}
    {words : List (Int × Bytes × List Relocation)} (h : List.Forall₂ (Spelled file) qs words) :
    words.flatMap (fun (_, _, relocations) => relocations) =
      (qs.flatMap Placed.cells).filterMap Cell.relocation? := by
  induction h with
  | nil => rfl
  | cons hx _ ih =>
    obtain ⟨fields, -, rfl⟩ := hx
    rw [List.flatMap_cons, List.flatMap_cons, List.filterMap_append, ih]

theorem relocation?_place {c : Cell} {r : Relocation} (h : c.relocation? = some r) :
    r.offset = c.place ∧ r.kind.width = c.slot.size := by
  obtain ⟨⟨kind, target⟩, hk, rfl⟩ := Option.map_eq_some_iff.mp h
  exact ⟨rfl, (relocationKind?_width hk).symm⟩

theorem relocations_pairwise {cells : List Cell} (h : cells.Pairwise Cell.Before) :
    (cells.filterMap Cell.relocation?).Pairwise Relocation.Before := by
  refine h.filterMap Cell.relocation? fun c d hcd r hr s hs => ?_
  have hr := relocation?_place hr
  have hs := relocation?_place hs
  simp only [Cell.Before, Relocation.Before] at hcd ⊢
  omega

theorem sortRelocations_eq {rs : List Relocation} (h : rs.Pairwise Relocation.Before) :
    sortRelocations rs = rs := by
  refine List.mergeSort_of_pairwise (h.imp fun hrs => ?_)
  simp only [Relocation.Before, decide_eq_true_eq] at hrs ⊢
  omega

theorem sum_size_placements : ∀ (offset : Nat) (ds : List (Syntax.DataDecl × Nat × List Cause)),
    ((placements offset ds).map (·.size)).sum = roomOf ds
  | _, [] => rfl
  | offset, (d, size, _) :: ds => by
    have hroom := sum_size_placements (offset + size) ds
    simp only [placements, List.map_cons, List.sum_cons, hroom, roomOf]

/-- The data of an accepted program are written into the room that was measured for them. -/
theorem mapM_encodeDatum {p : Program} {a : Analysis} (hp : p.Written) (h : Accepted p a) :
    ∃ blocks : List Bytes, a.data.mapM (fun d => encodeDatum d.decl d.size a.file) = .ok blocks ∧
      blocks.flatten.length = (a.data.map (·.size)).sum := by
  have hall : ∀ d ∈ a.data, ∃ bytes, encodeDatum d.decl d.size a.file = .ok bytes ∧
      bytes.length = d.size := by
    intro d hd
    rw [h.data] at hd
    obtain ⟨before, causes, after, hsplit, -⟩ := mem_placements hd
    have hmem : (d.decl, d.size, causes) ∈ sized p := by rw [hsplit]; simp
    obtain ⟨decl, hdecl, heq⟩ := List.mem_map.mp hmem
    obtain ⟨rfl, hsize⟩ := Prod.mk.inj heq
    have hdatum := h.datumSize_eq hdecl
    rw [hsize] at hdatum
    exact encodeDatum_of_measured (hp.data hdecl).2 hdatum a.file
  obtain ⟨blocks, hblocks⟩ := Steps.exists_forall₂ hall
  refine ⟨blocks, Steps.mapM_eq_ok.mpr (hblocks.imp fun _ _ hb => hb.1), ?_⟩
  rw [List.length_flatten]
  congr 1
  rw [← List.forall₂_eq_eq_eq, List.forall₂_map_left_iff, List.forall₂_map_right_iff]
  exact (hblocks.imp fun _ _ hb => hb.2).flip

/-- **Every accepted program has an object.** -/
theorem exists_encode {p : Program} {a : Analysis} (hp : p.Written) (h : Accepted p a)
    (hok : a.ok = true) (name : Option String) :
    ∃ o, a.encode name = .ok o ∧ o.name = name.getD (defaultName a.file) ∧ Encoded a o := by
  obtain ⟨words, hwords, hspelled⟩ := mapM_encode h.code a.file
  obtain ⟨blocks, hblocks, hlen⟩ := mapM_encodeDatum hp h
  have hcount : a.code.length = p.instructions.length := by
    simpa using h.code.length_eq.symm
  have hsize : ((a.code.length * wordSize : Nat) : Int) = (a.codeSize : Int) := by
    rw [h.codeSize, hcount, Nat.mul_comm]
  have hcheck : Integer.checkSize a.codeSize = .ok a.codeSize :=
    Integer.checkSize_natCast (Nat.lt_of_le_of_lt h.codeSize_le (by decide))
  have hsorted := relocations_pairwise (cells_pairwise h.code).1
  simp only [encode, encodeSized, hok, hcheck, hwords, hsize, hblocks, Bool.not_true,
    Bool.false_eq_true, if_false, ne_eq, not_true_eq_false]
  have hcode : layWords a.codeSize 0 (words.map fun (offset, word, _) => (offset, word)) =
      (words.map (·.2.1)).flatten := by
    have hconsecutive := spelled_consecutive h.code hspelled
    rw [← List.length_map (f := fun x : Int × Bytes × List Relocation => (x.1, x.2.1))]
      at hconsecutive
    have := layWords_consecutive a.codeSize hconsecutive (by
      rw [List.length_map, ← hspelled.length_eq, h.codeSize, hcount, Nat.zero_add])
    rw [Nat.mul_zero, List.map_map] at this
    exact this
  have hwidth : ∀ w ∈ words.map (·.2.1), w.length = wordSize := by
    intro w hw
    obtain ⟨x, hx, rfl⟩ := List.mem_map.mp hw
    obtain ⟨k, -, hk⟩ := Steps.exists_mem_left (spelled_consecutive h.code hspelled) (x.1, x.2.1)
      (List.mem_map.mpr ⟨x, hx, rfl⟩)
    exact hk.2
  refine ⟨_, rfl, rfl, ?_⟩
  refine ⟨?_, ?_, ?_, hlen, rfl, rfl, rfl, rfl⟩
  · show (layWords _ _ _).length = _
    rw [hcode, length_flatten_words hwidth, List.length_map, hspelled.length_eq]
  · intro k q hq
    obtain ⟨x, hx, fields, hfields, rfl⟩ := Steps.getElem?_of_forall₂ hspelled hq
    refine ⟨fields, hfields, ?_⟩
    show slice (layWords _ _ _) _ _ = _
    rw [hcode]
    exact slice_flatten hwidth (by rw [List.getElem?_map, hx]; rfl)
  · show sortRelocations _ = _
    rw [spelled_relocations hspelled, sortRelocations_eq hsorted]

/-! ### The parts of an object -/

/-- The word and the relocations of an instruction with its offset. -/
def Placed.spelled (file : Option String) (q : Placed) :
    Except Failure (Int × Bytes × List Relocation) := do
  let (word, relocations) ← q.encode file
  return (q.offset, word, relocations)

/-- The object that is made of words and blocks of data. -/
def ofParts (a : Analysis) (name : Option String) (room : Nat)
    (words : List (Int × Bytes × List Relocation)) (blocks : List Bytes) : Object where
  name := name.getD (defaultName a.file)
  mask := a.mask
  code := layWords room 0 (words.map fun (offset, word, _) => (offset, word))
  data := blocks.flatten
  exports := objectSymbols (a.symbols.ofKinds [.exportedLabel])
  symbols := objectSymbols (a.symbols.ofKinds [.localLabel, .dataSymbol])
  imports := (a.symbols.ofKinds [.importedExternal]).map fun s => { name := s.name }
  libraries := a.libraries.map fun (name, id) => ⟨name, id⟩
  relocations := sortRelocations (words.flatMap fun (_, _, relocations) => relocations)
  entry := a.entry.map fun e => (e : Int)

/-- An object is made of words and blocks of data that can be encoded. -/
theorem encode_eq_ok {a : Analysis} {name : Option String} {o : Object} :
    a.encode name = .ok o ↔ a.ok = true ∧ ∃ room words blocks,
      (Integer.checkSize a.codeSize).mapError Failure.number = .ok room ∧
      a.code.mapM (Placed.spelled a.file) = .ok words ∧
      ((a.code.length * wordSize : Nat) : Int) = a.codeSize ∧
      a.data.mapM (fun d => encodeDatum d.decl d.size a.file) = .ok blocks ∧
      a.ofParts name room words blocks = o := by
  rw [encode, encodeSized]
  by_cases hok : a.ok = true
  · simp only [hok, Bool.not_true, Bool.false_eq_true, if_false, true_and]
    constructor
    · intro h
      obtain ⟨room, hroom, h⟩ := Steps.bind_eq_ok.mp h
      obtain ⟨words, hwords, h⟩ := Steps.bind_eq_ok.mp h
      split_ifs at h with hsize
      · cases h
      · obtain ⟨blocks, hblocks, h⟩ := Steps.bind_eq_ok.mp h
        exact ⟨room, words, blocks, hroom, hwords, not_not.mp hsize, hblocks, Except.ok.inj h⟩
    · rintro ⟨room, words, blocks, hroom, hwords, hsize, hblocks, rfl⟩
      refine Steps.bind_eq_ok.mpr ⟨room, hroom, Steps.bind_eq_ok.mpr ⟨words, hwords, ?_⟩⟩
      rw [if_neg (not_not.mpr hsize)]
      exact Steps.bind_eq_ok.mpr ⟨blocks, hblocks, rfl⟩
  · rw [Bool.not_eq_true] at hok
    simp only [hok, Bool.not_false, if_true, Bool.false_eq_true, false_and, iff_false]
    exact fun h => by cases h

end Analysis

end AluVM
