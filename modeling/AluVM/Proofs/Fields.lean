import AluVM.Link.Job
import AluVM.Proofs.Steps
import Mathlib.Tactic.SplitIfs

/-! # Fields of code

Linking writes bytes into code. A piece of code is a slice of it (`slice`); slices of one code that
follow one another make up a longer one, and codes that agree on the places of a slice have the
same slice.

Writing fields changes nothing outside them (`getElem?_fill_of_outside`), and if the fields are
apart, each of them holds its own bytes in the end, in whatever order they were written
(`slice_fill`). The steps of a link job are taken apart here too, one lemma a step: each of them
fills a field, and nothing else of the job changes but its list of libraries and calls. If a step
fails, it shows an integer of the object at most; the lemmas named `covered` say so for any class of
failures that holds these. -/

namespace AluVM

/-! ### Slices -/

/-- The `size` bytes from a place on, fewer if the end comes first. -/
def slice (code : Bytes) (place size : Nat) : Bytes := (code.drop place).take size

theorem slice_split (code : Bytes) (place first second : Nat) : slice code place (first + second) =
    slice code place first ++ slice code (place + first) second := by
  rw [slice, List.take_add, List.drop_drop]
  rfl

theorem length_slice {code : Bytes} {place size : Nat} (h : place + size ≤ code.length) :
    (slice code place size).length = size := by
  simp only [slice, List.length_take, List.length_drop]
  omega

theorem getElem?_slice (code : Bytes) (place size i : Nat) :
    (slice code place size)[i]? = if i < size then code[place + i]? else none := by
  simp only [slice, List.getElem?_take, List.getElem?_drop]

theorem slice_congr {code code' : Bytes} {place size : Nat}
    (h : ∀ i, place ≤ i → i < place + size → code'[i]? = code[i]?) :
    slice code' place size = slice code place size := by
  refine List.ext_getElem? fun i => ?_
  rw [getElem?_slice, getElem?_slice]
  split
  · exact h (place + i) (by omega) (by omega)
  · rfl

theorem slice_append_right (before code : Bytes) (place size : Nat) :
    slice (before ++ code) (before.length + place) size = slice code place size := by
  simp [slice, List.drop_append, List.drop_eq_nil_of_le (Nat.le_add_right before.length place)]

/-! ### The fields of relocations -/

/-- The bytes of the field of a relocation. -/
def RelocationKind.width : RelocationKind → Nat
  | localOffset => 2
  | externalCall => 3
  | dataAddress => 2

theorem RelocationKind.width_pos (kind : RelocationKind) : 0 < kind.width := by
  cases kind <;> decide

/-- Whether a place is in the field of the relocation. -/
def Relocation.Covers (r : Relocation) (i : Nat) : Prop :=
  r.offset ≤ i ∧ (i : Int) < r.offset + r.kind.width

/-- The field of the first relocation ends where that of the second one starts, or before. -/
def Relocation.Before (r s : Relocation) : Prop := r.offset + (r.kind.width : Int) ≤ s.offset

namespace Job

/-! ### One field -/

@[simp] theorem size_overwrite : ∀ (bytes : Bytes) (code : Array UInt8) (place : Nat),
    (overwrite code place bytes).size = code.size
  | [], _, _ => rfl
  | b :: bs, code, place => by
    rw [overwrite, size_overwrite bs]
    exact Array.size_setIfInBounds

theorem getElem?_overwrite : ∀ (bytes : Bytes) (code : Array UInt8) (place i : Nat),
    (overwrite code place bytes)[i]? =
      if place ≤ i ∧ i < place + bytes.length ∧ i < code.size then bytes[i - place]? else code[i]?
  | [], code, place, i => by
    rw [overwrite, if_neg]
    simp only [List.length_nil]
    omega
  | b :: bs, code, place, i => by
    rw [overwrite, getElem?_overwrite bs, Array.getElem?_setIfInBounds, Array.size_setIfInBounds]
    rcases Nat.lt_trichotomy i place with h | rfl | h
    · rw [if_neg (by omega), if_neg (by omega), if_neg (by omega)]
    · by_cases hi : i < code.size
      · rw [if_neg (by omega), if_pos rfl, if_pos hi, if_pos (by simp [hi])]
        simp
      · rw [if_neg (by omega), if_pos rfl, if_neg hi, if_neg (by omega)]
        simp [Array.getElem?_eq_none (Nat.le_of_not_lt hi)]
    · have hsub : i - place = (i - (place + 1)) + 1 := by omega
      rw [if_neg (by omega : ¬ place = i), hsub, List.getElem?_cons_succ, List.length_cons]
      congr 1
      rw [eq_iff_iff]
      omega

/-! ### Several fields -/

/-- A field of the code and the bytes that belong there. -/
structure Filling where
  place : Nat
  bytes : Bytes

/-- Whether a place is in the field. -/
def Filling.Has (f : Filling) (i : Nat) : Prop := f.place ≤ i ∧ i < f.place + f.bytes.length

/-- Two fields without a common place. -/
def Filling.Apart (f g : Filling) : Prop := ∀ i, f.Has i → ¬ g.Has i

/-- Writes fields one after the other. -/
def fill (code : Array UInt8) (fs : List Filling) : Array UInt8 :=
  fs.foldl (fun c f => overwrite c f.place f.bytes) code

theorem fill_append (code : Array UInt8) (fs gs : List Filling) :
    fill code (fs ++ gs) = fill (fill code fs) gs := List.foldl_append

@[simp] theorem size_fill (code : Array UInt8) (fs : List Filling) :
    (fill code fs).size = code.size := by
  induction fs generalizing code with
  | nil => rfl
  | cons f fs ih => exact (ih _).trans (size_overwrite _ _ _)

/-- **Writing fields changes nothing outside them.** -/
theorem getElem?_fill_of_outside {i : Nat} : ∀ {fs : List Filling} {code : Array UInt8},
    (∀ f ∈ fs, ¬ f.Has i) → (fill code fs)[i]? = code[i]?
  | [], _, _ => rfl
  | f :: fs, code, h => by
    have hrest : (fill (overwrite code f.place f.bytes) fs)[i]? =
        (overwrite code f.place f.bytes)[i]? :=
      getElem?_fill_of_outside fun g hg => h g (List.mem_cons_of_mem f hg)
    have hf : ¬ (f.place ≤ i ∧ i < f.place + f.bytes.length) := h f List.mem_cons_self
    rw [show fill code (f :: fs) = fill (overwrite code f.place f.bytes) fs from rfl, hrest,
      getElem?_overwrite, if_neg]
    exact fun hi => hf ⟨hi.1, hi.2.1⟩

/-- **Fields that are apart hold their own bytes** after all of them were written. -/
theorem slice_fill {code : Array UInt8} {fs : List Filling} (hapart : fs.Pairwise Filling.Apart)
    {f : Filling} (hf : f ∈ fs) (hin : f.place + f.bytes.length ≤ code.size) :
    slice (fill code fs).toList f.place f.bytes.length = f.bytes := by
  obtain ⟨before, after, rfl⟩ := List.append_of_mem hf
  have hafter : ∀ g ∈ after, f.Apart g :=
    (List.pairwise_cons.mp (List.pairwise_append.mp hapart).2.1).1
  refine List.ext_getElem? fun i => ?_
  rw [getElem?_slice]
  split
  · rename_i hi
    have hat : f.Has (f.place + i) := ⟨by omega, by omega⟩
    rw [Array.getElem?_toList, fill_append]
    have hlast : (fill (fill code before) (f :: after))[f.place + i]? =
        (overwrite (fill code before) f.place f.bytes)[f.place + i]? :=
      getElem?_fill_of_outside fun g hg => hafter g hg _ hat
    rw [hlast, getElem?_overwrite, if_pos ⟨hat.1, hat.2, by rw [size_fill]; omega⟩]
    congr 1
    omega
  · rename_i hi
    exact (List.getElem?_eq_none (Nat.le_of_not_lt hi)).symm

/-! ### The steps of a job -/

theorem patch_eq_ok {j j' : Job} {offset : Int} {target : String} {bytes : Bytes} :
    j.patch offset target bytes = .ok j' ↔ 1 ≤ offset ∧ offset + bytes.length ≤ j.code.size ∧
      j' = { j with code := overwrite j.code offset.toNat bytes } := by
  unfold patch
  split_ifs with h
  · simp only [Bool.or_eq_true, decide_eq_true_eq] at h
    simp only [false_iff]
    omega
  · simp only [Bool.or_eq_true, decide_eq_true_eq] at h
    simp only [Except.ok.injEq, @eq_comm _ _ j']
    exact ⟨fun hj => ⟨by omega, by omega, hj⟩, fun hj => hj.2.2⟩

theorem offsetField_eq_ok {object target : String} {value : Int} {field : Bytes} :
    offsetField object target value = .ok field ↔
      0 ≤ value ∧ value ≤ maxOffset ∧ field = Bytes.ofNat 2 value.toNat := by
  unfold offsetField
  split_ifs with h
  · simp only [Bool.and_eq_true, decide_eq_true_eq] at h
    simp [h, @eq_comm _ _ field]
  · simp only [Bool.and_eq_true, decide_eq_true_eq, not_and] at h
    simp only [false_iff]
    exact fun hv => h hv.1 hv.2.1

/-- The bytes of an offset are written into a field of the code. -/
structure Fills (r : Relocation) (field : Bytes) (j j' : Job) : Prop where
  place : 1 ≤ r.offset
  inside : r.offset + field.length ≤ j.code.size
  code : j'.code = overwrite j.code r.offset.toNat field
  object : j'.object = j.object

theorem resolve_eq_ok {value : Object → String → Except Failure Int} {j j' : Job} {r : Relocation}
    (h : j.resolve value r = .ok j') : ∃ v, value j.object r.target = .ok v ∧
      0 ≤ v ∧ v ≤ maxOffset ∧ Fills r (Bytes.ofNat 2 v.toNat) j j' ∧
      j'.libraries = j.libraries ∧ j'.calls = j.calls := by
  obtain ⟨v, hv, h⟩ := Steps.bind_eq_ok.mp h
  obtain ⟨field, hfield, h⟩ := Steps.bind_eq_ok.mp h
  obtain ⟨hlow, hhigh, rfl⟩ := offsetField_eq_ok.mp hfield
  obtain ⟨hplace, hinside, rfl⟩ := patch_eq_ok.mp h
  exact ⟨v, hv, hlow, hhigh, ⟨hplace, hinside, rfl, rfl⟩, rfl, rfl⟩

theorem resolve_object {value : Object → String → Except Failure Int} {j j' : Job} {r : Relocation}
    (h : j.resolve value r = .ok j') : j'.object = j.object := by
  obtain ⟨_, -, -, -, hfills, -⟩ := resolve_eq_ok h
  exact hfills.object

/-- The place of a library in the table, which only grows at its end. -/
theorem libraryIndex_eq_ok {j j' : Job} {id : String} {index : Nat}
    (h : j.libraryIndex id = .ok (index, j')) :
    j'.libraries[index]? = some id ∧ j.libraries <+: j'.libraries ∧
      j' = { j with libraries := j'.libraries } ∧
      (j.libraries.length ≤ maxLibraries → j'.libraries.length ≤ maxLibraries) ∧
      ∀ other, other ∈ j'.libraries ↔ other ∈ j.libraries ∨ other = id := by
  unfold libraryIndex at h
  split at h
  · rename_i found hfound
    cases h
    obtain ⟨hlt, hget, -⟩ := List.idxOf?_eq_some_iff.mp hfound
    refine ⟨by rw [List.getElem?_eq_getElem hlt, hget], List.prefix_rfl, rfl, fun hle => hle, ?_⟩
    refine fun other => ⟨Or.inl, ?_⟩
    rintro (hother | rfl)
    · exact hother
    · exact List.mem_of_getElem hget
  · split_ifs at h with hfull
    cases h
    refine ⟨by simp, List.prefix_append _ _, rfl, fun _ => ?_, by simp⟩
    simp only [List.length_append, List.length_singleton]
    omega

theorem resolveCall_eq_ok {j j' : Job} {r : Relocation} {id : String} {routine : Int}
    {index : Nat} (h : j.resolveCall r id routine = .ok (index, j')) :
    0 ≤ routine ∧ routine ≤ maxOffset ∧ j'.libraries[index]? = some id ∧
      j.libraries <+: j'.libraries ∧
      (j.libraries.length ≤ maxLibraries → j'.libraries.length ≤ maxLibraries) ∧
      Fills r (UInt8.ofNat index :: Bytes.ofNat 2 routine.toNat) j j' ∧
      j'.calls = j.calls ++ [⟨r.offset, id, routine⟩] ∧
      ∀ other, other ∈ j'.libraries ↔ other ∈ j.libraries ∨ other = id := by
  obtain ⟨⟨index', j1⟩, hindex, h⟩ := Steps.bind_eq_ok.mp h
  obtain ⟨hget, hgrow, hj1, hfull, hmem⟩ := libraryIndex_eq_ok (Steps.mapError_ok_iff.mp hindex)
  obtain ⟨field, hfield, h⟩ := Steps.bind_eq_ok.mp h
  obtain ⟨hlow, hhigh, rfl⟩ := offsetField_eq_ok.mp hfield
  obtain ⟨j2, hpatch, h⟩ := Steps.bind_eq_ok.mp h
  obtain ⟨hplace, hinside, rfl⟩ := patch_eq_ok.mp hpatch
  cases h
  rw [hj1] at hinside
  refine ⟨hlow, hhigh, hget, hgrow, hfull, ⟨hplace, hinside, ?_, ?_⟩, ?_, hmem⟩
  · show overwrite j1.code _ _ = _
    rw [hj1]
  · show j1.object = _
    rw [hj1]
  · show j1.calls ++ _ = _
    rw [hj1]

end Job

namespace Object

theorem symbolValue_eq_ok {o : Object} {kinds : List SymbolKind} {missing : EncodeCause}
    {target : String} {v : Int} :
    o.symbolValue kinds missing target = .ok v ↔
      ∃ x, o.lookup? target kinds = some x ∧ x.value = v := by
  unfold symbolValue
  rcases o.lookup? target kinds with _ | x <;> simp

/-- A datum that has a value lies in the data. -/
theorem datumValue_eq_ok {o : Object} {target : String} {v : Int} :
    o.datumValue target = .ok v ↔
      ∃ x, o.lookup? target [.dataSymbol] = some x ∧ x.value = v ∧ v ≤ o.data.length := by
  unfold datumValue
  simp only [Steps.bind_eq_ok, symbolValue_eq_ok]
  constructor
  · rintro ⟨_, ⟨x, hx, rfl⟩, h⟩
    split_ifs at h with houtside
    cases h
    exact ⟨x, hx, rfl, Int.not_lt.mp houtside⟩
  · rintro ⟨x, hx, rfl, hinside⟩
    exact ⟨_, ⟨x, hx, rfl⟩, if_neg (Int.not_lt.mpr hinside)⟩

end Object

/-! ### What a step may fail with -/

/-- A class of failures that holds every defect of an object which shows only integers of a set. -/
def Failure.Covers (S : Int → Prop) (E : Failure → Prop) : Prop :=
  ∀ cause : EncodeCause, (∀ v ∈ cause.shown, S v) → E (.internal cause)

/-- The integers of an object that such a failure may show are in a set. -/
structure Object.Shows (S : Int → Prop) (o : Object) : Prop where
  offset : ∀ r ∈ o.relocations, S r.offset
  value : ∀ x ∈ o.exports ++ o.symbols, S x.value

open Steps

section Values
variable {S : Int → Prop} {E : Failure → Prop} {o : Object}

theorem Object.symbolValue_covered (hE : Failure.Covers S E) (ho : o.Shows S)
    (kinds : List SymbolKind) {missing : EncodeCause} (hmissing : missing.shown = [])
    (target : String) : Yields S E (o.symbolValue kinds missing target) := by
  unfold symbolValue
  split
  · exact hE _ (by simp [hmissing])
  · rename_i x hx
    exact ho.value x (List.mem_of_find?_eq_some hx)

theorem Object.labelValue_covered (hE : Failure.Covers S E) (ho : o.Shows S) (target : String) :
    Yields S E (o.labelValue target) :=
  symbolValue_covered hE ho _ rfl target

theorem Object.datumValue_covered (hE : Failure.Covers S E) (ho : o.Shows S) (target : String) :
    Yields S E (o.datumValue target) := by
  refine (symbolValue_covered hE ho _ rfl target).bind fun v hv => ?_
  split_ifs
  · exact hE _ (by simp [EncodeCause.shown])
  · exact hv

end Values

namespace Job

section Covered
variable {S : Int → Prop} {E : Failure → Prop} {j : Job} {r : Relocation}

theorem patch_covered (hE : Failure.Covers S E) (j : Job) {offset : Int} (hoffset : S offset)
    (target : String) (bytes : Bytes) :
    Yields (fun _ => True) E (j.patch offset target bytes) := by
  unfold patch
  split_ifs
  · exact hE _ (by simpa [EncodeCause.shown] using hoffset)
  · trivial

theorem offsetField_covered (hE : Failure.Covers S E) {value : Int} (hvalue : S value)
    (object target : String) : Yields (fun _ => True) E (offsetField object target value) := by
  unfold offsetField
  split_ifs
  · trivial
  · exact hE _ (by simpa [EncodeCause.shown] using hvalue)

theorem resolve_covered {value : Object → String → Except Failure Int} (hE : Failure.Covers S E)
    (hoffset : S r.offset) (hvalue : Yields S E (value j.object r.target)) :
    Yields (fun _ => True) E (j.resolve value r) := by
  refine hvalue.bind fun v hv => (offsetField_covered hE hv _ _).bind fun field _ => ?_
  exact patch_covered hE j hoffset _ _

/-- A call may also be one library too many. -/
theorem resolveCall_covered (hE : Failure.Covers S E)
    (hfull : E (.link (.tooManyLibraries j.object.name maxLibraries))) (hoffset : S r.offset)
    (id : String) {routine : Int} (hroutine : S routine) :
    Yields (fun _ => True) E (j.resolveCall r id routine) := by
  have hindex : Yields (fun _ => True) E ((j.libraryIndex id).mapError .link) := by
    unfold libraryIndex
    split
    · trivial
    · split_ifs
      · exact hfull
      · trivial
  refine hindex.bind fun x _ => (offsetField_covered hE hroutine _ _).bind fun field _ => ?_
  exact (patch_covered hE x.2 hoffset _ _).bind fun _ _ => trivial

end Covered

end Job

end AluVM
