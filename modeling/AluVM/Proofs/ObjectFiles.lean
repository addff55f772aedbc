import AluVM.Proofs.Spelling

/-! # Object files

What is read as an object is what its fields spell, with any bytes behind the name in its section:
`Object.fieldsWith`. The reader tells two things not apart: an entry that is the mark of no entry,
and an empty id of a library. Objects without them (`Object.Plain`) are read back as they were
written, and what is read is one of them. -/

namespace AluVM

/-! ### Kinds -/

/-- A kind is found by its number, if every kind is found by its own. -/
theorem find?_code_eq_some {K : Type} {all : List K} {code : K → Nat} {n : Nat} {k : K}
    (hall : ∀ k, all.find? (fun j => ((code j : Nat) : Int) = code k) = some k) :
    all.find? (fun j => ((code j : Nat) : Int) = n) = some k ↔ code k = n := by
  constructor
  · intro h
    have hfound := List.find?_some h
    exact_mod_cast of_decide_eq_true hfound
  · rintro rfl
    exact hall k

theorem SymbolKind.ofCode?_eq_some {n : Nat} {kind : SymbolKind} :
    ofCode? n = some kind ↔ kind.code = n :=
  find?_code_eq_some (by rintro ⟨⟩ <;> rfl)

theorem RelocationKind.ofCode?_eq_some {n : Nat} {kind : RelocationKind} :
    ofCode? n = some kind ↔ kind.code = n :=
  find?_code_eq_some (by rintro ⟨⟩ <;> rfl)

/-! ### Parts of a file -/

namespace Wire

theorem spells_symbolKind : Spells readSymbolKind fun kind fs => fs = [.u8 kind.code] := by
  refine (Spells.u8.bind fun code => Spells.ofOption (o := SymbolKind.ofCode? code) (f := id)
    (fun kind h => by rw [h]; rfl) fun h => ⟨_, by rw [h]⟩).congr fun kind fs => ?_
  simp only [SymbolKind.ofCode?_eq_some]
  constructor
  · rintro ⟨code, xs, ys, rfl, ⟨⟨kind', rfl, rfl⟩, rfl⟩, rfl⟩
    rfl
  · rintro rfl
    exact ⟨_, _, [], rfl, ⟨⟨kind, rfl, rfl⟩, rfl⟩, rfl⟩

theorem spells_symbol : Spells readSymbol fun s fs =>
    fs = [.text s.name, .u8 s.kind.code, .u32 s.value] := by
  refine (Spells.text.bind fun name => spells_symbolKind.bind fun kind => Spells.u32.bind fun v =>
    Spells.pure (⟨name, kind, v⟩ : ObjectSymbol)).congr_of_encoded fun s fs form hfs => ?_
  constructor
  · rintro ⟨name, -, -, rfl, ⟨kind, -, -, rfl, ⟨v, -, -, rfl, ⟨rfl, rfl⟩, rfl⟩, rfl⟩, rfl⟩
    rfl
  · rintro rfl
    obtain ⟨name, kind, value⟩ := s
    obtain ⟨v, rfl⟩ : ∃ v : Nat, value = v := natural_of_u32 hfs (by simp)
    exact ⟨name, _, _, rfl, ⟨kind, _, _, rfl, ⟨v, _, [], rfl, ⟨rfl, rfl⟩, rfl⟩, rfl⟩, rfl⟩

theorem spells_symbols : Spells readSymbols fun ss fs => fs = symbolFields ss :=
  Spells.u16.list spells_symbol

end Wire

namespace Object

open Wire

theorem spells_import : Spells readImport fun i fs => fs = [.text i.name, .u8 i.kind.code] := by
  refine (Spells.text.bind fun name => spells_symbolKind.bind fun kind =>
    Spells.pure (⟨name, kind⟩ : Import)).congr fun i fs => ?_
  constructor
  · rintro ⟨name, -, -, rfl, ⟨kind, -, -, rfl, ⟨rfl, rfl⟩, rfl⟩, rfl⟩
    rfl
  · rintro rfl
    exact ⟨_, _, _, rfl, ⟨_, _, [], rfl, ⟨rfl, rfl⟩, rfl⟩, rfl⟩

theorem spells_libraryRef : Spells readLibraryRef fun l fs =>
    l.id ≠ some "" ∧ fs = [.text l.name, .text (l.id.getD "")] := by
  refine (Spells.text.bind fun name => Spells.text.bind fun id =>
    Spells.pure (⟨name, if id.isEmpty then none else some id⟩ : LibraryRef)).congr fun l fs => ?_
  constructor
  · rintro ⟨name, -, -, rfl, ⟨id, -, -, rfl, ⟨rfl, rfl⟩, rfl⟩, rfl⟩
    by_cases hid : id = ""
    · subst hid
      exact ⟨by simp, rfl⟩
    · have hempty : id.isEmpty = false := by simpa using hid
      simp [hempty, hid]
  · obtain ⟨name, _ | id⟩ := l
    · rintro ⟨-, rfl⟩
      exact ⟨name, _, _, rfl, ⟨"", _, [], rfl, ⟨rfl, rfl⟩, rfl⟩, rfl⟩
    · rintro ⟨hid, rfl⟩
      have hempty : id.isEmpty = false := by simpa using hid
      refine ⟨name, _, _, rfl, ⟨id, _, [], rfl, ⟨?_, rfl⟩, rfl⟩, rfl⟩
      simp [hempty]

theorem spells_relocation : Spells readRelocation fun r fs =>
    fs = [.u32 r.offset, .u8 r.kind.code, .text r.target] := by
  refine (Spells.u32.bind fun offset => Spells.u8.bind fun code => Spells.text.bind fun target =>
    Spells.ofOption (o := RelocationKind.ofCode? code)
      (f := fun kind => (⟨offset, kind, target⟩ : Relocation))
      (fun kind h => by rw [h]) fun h => ⟨_, by rw [h]⟩).congr_of_encoded fun r fs form hfs => ?_
  simp only [RelocationKind.ofCode?_eq_some]
  constructor
  · rintro ⟨offset, -, -, rfl, ⟨code, -, -, rfl, ⟨target, -, -, rfl, ⟨⟨kind, rfl, rfl⟩, rfl⟩, rfl⟩,
      rfl⟩, rfl⟩
    rfl
  · rintro rfl
    obtain ⟨offset, kind, target⟩ := r
    obtain ⟨n, rfl⟩ : ∃ n : Nat, offset = n := natural_of_u32 hfs (by simp)
    exact ⟨n, _, _, rfl, ⟨kind.code, _, _, rfl, ⟨target, _, [], rfl, ⟨⟨kind, rfl, rfl⟩, rfl⟩, rfl⟩,
      rfl⟩, rfl⟩

/-! ### Whole files -/

/-- What the reader tells apart from what it makes of it. -/
structure Plain (o : Object) : Prop where
  entry : o.entry ≠ some (noEntry : Int)
  ids : ∀ l ∈ o.libraries, l.id ≠ some ""

/-- The fields of an object file, with further bytes behind the name in its section. -/
def fieldsWith (extra : Bytes) (o : Object) : List Field :=
  headerFields magic version o.mask o.entry ++
    .nested (.text o.name :: byteFields extra) :: o.fields.tail

theorem spells_read : Spells read fun o fs => o.Plain ∧ ∃ extra, fs = o.fieldsWith extra := by
  have hheader : Spells (readHeader magic version) _ := Spells.header (by decide) (by decide)
  have himports := (Spells.u16.list spells_import).inside_whole
  have hlibraries := (Spells.u16.list_of spells_libraryRef).inside_whole
  have hrelocations := (Spells.u32.list spells_relocation).inside_whole
  refine (hheader.part (C := fun _ => True) (fun o => (o.mask, o.entry)) fun x =>
    Spells.text.inside.part name fun _ => Spells.blob.part code fun _ =>
    Spells.blob.part data fun _ => spells_symbols.inside_whole.part exports fun _ =>
    spells_symbols.inside_whole.part symbols fun _ => himports.part imports fun _ =>
    hlibraries.part libraries fun _ => hrelocations.part relocations fun _ =>
    (Spells.pure _).congr (G := fun _ fs => _ ∧ fs = []) fun o fs => ?_).congr fun o fs => ?_
  · refine and_congr_left fun _ => ?_
    obtain ⟨mask, entry⟩ := x
    cases o
    simp
    tauto
  · simp only [true_and, and_assoc, exists_eq_left, exists_and_left, exists_exists_and_eq_and]
    constructor
    · rintro ⟨hentry, -, ⟨-, ⟨extra, rfl⟩, hids, -, rfl, rfl⟩, rfl⟩
      exact ⟨⟨hentry, hids⟩, extra, rfl⟩
    · rintro ⟨⟨hentry, hids⟩, extra, rfl⟩
      exact ⟨hentry, _, ⟨_, ⟨extra, rfl⟩, hids, _, rfl, rfl⟩, rfl⟩

theorem toBytes_eq_ok {o : Object} {raw : Bytes} :
    o.toBytes = .ok raw ↔ encodeAll (o.fieldsWith []) = .ok raw := by
  simp only [toBytes, Steps.bind_eq_ok, header_eq_ok, fieldsWith, encodeAll_append]
  constructor
  · rintro ⟨x, hx, y, hy, hraw⟩
    exact ⟨x, y, hx, hy, (Except.ok.inj hraw).symm⟩
  · rintro ⟨x, y, hx, hy, rfl⟩
    exact ⟨x, hx, y, hy, rfl⟩

theorem ofBytes_eq_ok {o : Object} {raw : Bytes} : ofBytes raw = .ok o ↔
    o.Plain ∧ ∃ extra, encodeAll (o.fieldsWith extra) = .ok raw := by
  rw [ofBytes, spells_read.readAll_eq_ok]
  constructor
  · rintro ⟨-, ⟨hplain, extra, rfl⟩, hraw⟩
    exact ⟨hplain, extra, hraw⟩
  · rintro ⟨hplain, extra, hraw⟩
    exact ⟨_, ⟨hplain, extra, rfl⟩, hraw⟩

/-- An object that was read can be written, without the bytes behind its name. -/
theorem exists_toBytes {o : Object} {extra raw : Bytes}
    (h : encodeAll (o.fieldsWith extra) = .ok raw) :
    ∃ short, o.toBytes = .ok short ∧ raw.length = short.length + extra.length := by
  obtain ⟨x, y, hx, hy, rfl⟩ := encodeAll_append.mp h
  obtain ⟨z, rest, hz, hrest, rfl⟩ := encodeAll_cons.mp hy
  have hname : (Field.nested ([.text o.name] ++ byteFields extra)).encode = .ok z := hz
  obtain ⟨short, hshort, hlength⟩ := encode_nested_of_extra hname
  refine ⟨x ++ (short ++ rest), toBytes_eq_ok.mpr ?_, ?_⟩
  · exact encodeAll_append.mpr ⟨x, _, hx, encodeAll_cons.mpr ⟨short, rest, hshort, hrest, rfl⟩, rfl⟩
  · simp only [List.length_append]
    omega

/-- **An object that is written to a file is read from it as it was**, whatever its names and
however many symbols, imports, libraries and relocations it has, exactly if its entry is not the
mark of no entry and no id of a library is empty. -/
theorem ofBytes_of_toBytes_iff {o : Object} {raw : Bytes} (h : o.toBytes = .ok raw) :
    ofBytes raw = .ok o ↔
      o.entry ≠ some 0xffffffff ∧ ∀ l ∈ o.libraries, l.id ≠ some "" := by
  rw [ofBytes_eq_ok]
  constructor
  · rintro ⟨⟨hentry, hids⟩, -⟩
    exact ⟨hentry, hids⟩
  · rintro ⟨hentry, hids⟩
    exact ⟨⟨hentry, hids⟩, [], toBytes_eq_ok.mp h⟩

/-- An object with everything that an object can have. -/
def sample : Object where
  name := "núcleo"
  mask := 3
  code := List.replicate 16 0
  data := [1, 2]
  exports := [⟨"main", .exportedLabel, 0⟩, ⟨"σ", .exportedLabel, 8⟩]
  symbols := [⟨"loop", .localLabel, 8⟩, ⟨"key", .dataSymbol, 0⟩]
  imports := [⟨"lib.hash", .exportedLabel⟩]
  libraries := [⟨"lib", some "sha256:00"⟩, ⟨"aux", none⟩]
  relocations := [⟨1, .externalCall, "lib.hash"⟩, ⟨9, .localOffset, "loop"⟩]
  entry := some 8

theorem ofBytes_of_toBytes_sample : ∃ raw, sample.toBytes = .ok raw ∧
    ofBytes raw = .ok sample := by
  obtain ⟨raw, h⟩ := Steps.exists_of_isOk (by decide +kernel : sample.toBytes.isOk = true)
  exact ⟨raw, h, (ofBytes_of_toBytes_iff h).mpr (by decide)⟩

end Object

end AluVM
