import AluVM.Proofs.ObjectFiles

/-! # Library files

A library file is spelled by its fields, with any bytes behind the names in their section, and with
a place in the list of libraries for each call (`Library.fieldsWith`). Writing takes no bytes behind
the names and the first place of an id. What is read is therefore written to the same bytes exactly
if there are no such bytes and every place in the file is a first one; for objects only the bytes
behind the name count. -/

namespace AluVM

namespace Library

open Wire

/-- The fields of a call whose library has the given place. -/
def callFields (c : CallSite) (place : Nat) : List Field :=
  [.u32 c.offset, .u16 place, .u32 c.routine]

/-- The places at which the calls of a library find the ids of what they call. -/
def Places (l : Library) (places : List Nat) : Prop :=
  List.Forall₂ (fun c place => l.libraries[place]? = some c.library) l.calls places

/-- The fields of a library file before its calls, with further bytes behind the names in their
section. -/
def leadFields (extra : Bytes) (l : Library) : List Field :=
  headerFields magic version l.mask l.entry ++
    [.nested ([.text l.name, .text l.id] ++ byteFields extra), .blob l.code, .blob l.data,
      .nested (.u16 l.libraries.length :: l.libraries.map .text), .nested (symbolFields l.exports)]

/-- The fields of the calls of a library, with their libraries at the given places. -/
def callsFields (places : List Nat) (l : Library) : List Field :=
  .u32 l.calls.length :: (List.zipWith callFields l.calls places).flatten

/-- The fields of a library file. -/
def fieldsWith (extra : Bytes) (places : List Nat) (l : Library) : List Field :=
  l.leadFields extra ++ [.nested (l.callsFields places)]

theorem spells_call (libraries : List String) : Spells (readCall libraries) fun c fs =>
    ∃ place : Nat, libraries[place]? = some c.library ∧ fs = callFields c place := by
  refine (Spells.u32.bind fun offset => Spells.u16.bind fun place => Spells.u32.bind fun routine =>
    Spells.ofOption (o := libraries[place]?)
      (f := fun library => (⟨offset, library, routine⟩ : CallSite))
      (fun library h => by rw [h]) fun h => ⟨_, by rw [h]⟩).congr_of_encoded fun c fs form hfs => ?_
  constructor
  · rintro ⟨offset, -, -, rfl, ⟨place, -, -, rfl, ⟨routine, -, -, rfl,
      ⟨⟨library, h, rfl⟩, rfl⟩, rfl⟩, rfl⟩, rfl⟩
    exact ⟨place, h, rfl⟩
  · rintro ⟨place, h, rfl⟩
    obtain ⟨offset, library, routine⟩ := c
    obtain ⟨m, rfl⟩ : ∃ m : Nat, offset = m := natural_of_u32 hfs (by simp [callFields])
    obtain ⟨n, rfl⟩ : ∃ n : Nat, routine = n := natural_of_u32 hfs (by simp [callFields])
    exact ⟨m, _, _, rfl, ⟨place, _, _, rfl, ⟨n, _, [], rfl,
      ⟨⟨library, h, rfl⟩, rfl⟩, rfl⟩, rfl⟩, rfl⟩

theorem spells_calls (libraries : List String) :
    Spells (do times (← u32) (readCall libraries)) fun cs fs => ∃ places,
      List.Forall₂ (fun c (place : Nat) => libraries[place]? = some c.library) cs places ∧
        fs = .u32 cs.length :: (List.zipWith callFields cs places).flatten := by
  refine (Spells.u32.bind (spells_call libraries).times).congr fun cs fs => ?_
  have hlists : ∀ fss, List.Forall₂ (fun c fs => ∃ place : Nat, libraries[place]? = some c.library ∧
      fs = callFields c place) cs fss ↔ ∃ places,
        List.Forall₂ (fun c (place : Nat) => libraries[place]? = some c.library) cs places ∧
          fss = List.zipWith callFields cs places := by
    intro fss
    induction cs generalizing fss with
    | nil => simp
    | cons c cs ih =>
      simp only [List.forall₂_cons_left_iff, ih]
      constructor
      · rintro ⟨-, -, ⟨place, h, rfl⟩, ⟨places, hs, rfl⟩, rfl⟩
        exact ⟨place :: places, ⟨place, places, h, hs, rfl⟩, rfl⟩
      · rintro ⟨-, ⟨place, places, h, hs, rfl⟩, rfl⟩
        exact ⟨_, _, ⟨place, h, rfl⟩, ⟨places, hs, rfl⟩, rfl⟩
  simp only [hlists]
  constructor
  · rintro ⟨n, xs, ys, rfl, ⟨rfl, fss, ⟨places, hs, rfl⟩, rfl⟩, rfl⟩
    exact ⟨places, hs, rfl⟩
  · rintro ⟨places, hs, rfl⟩
    exact ⟨_, _, _, rfl, ⟨rfl, _, ⟨places, hs, rfl⟩, rfl⟩, rfl⟩

theorem spells_read : Spells read fun l fs => l.entry ≠ some (noEntry : Int) ∧
    ∃ extra places, l.Places places ∧ fs = l.fieldsWith extra places := by
  have hheader : Spells (readHeader magic version) _ := Spells.header (by decide) (by decide)
  have hnames : Spells (do let name ← text; return (name, ← text)) fun x fs =>
      fs = [.text x.1, .text x.2] := by
    refine (Spells.text.bind fun name => Spells.text.bind fun id => Spells.pure (name, id)).congr
      fun x fs => ?_
    constructor
    · rintro ⟨name, -, -, rfl, ⟨id, -, -, rfl, ⟨rfl, rfl⟩, rfl⟩, rfl⟩
      rfl
    · rintro rfl
      exact ⟨_, _, _, rfl, ⟨_, _, [], rfl, ⟨rfl, rfl⟩, rfl⟩, rfl⟩
  have hlibraries : Spells (inside (whole do times (← u16) text)) fun ids fs =>
      fs = [.nested (.u16 ids.length :: ids.map .text)] := by
    refine (Spells.u16.list Spells.text).inside_whole.congr fun ids fs => ?_
    simp [List.map_eq_flatMap]
  refine (hheader.part (C := fun _ => True) (fun l => (l.mask, l.entry)) fun x =>
    hnames.inside.part (fun l => (l.name, l.id)) fun y => Spells.blob.part code fun _ =>
    Spells.blob.part data fun _ => hlibraries.part libraries fun ids =>
    spells_symbols.inside_whole.part exports fun _ =>
    (spells_calls ids).inside_whole.part calls fun _ =>
    (Spells.pure _).congr (G := fun _ fs => _ ∧ fs = []) fun l fs => ?_).congr fun l fs => ?_
  · refine and_congr_left fun _ => ?_
    obtain ⟨mask, entry⟩ := x
    obtain ⟨name, id⟩ := y
    cases l
    simp
    tauto
  · simp only [true_and, and_assoc, exists_eq_left, exists_and_left, exists_exists_and_eq_and]
    constructor
    · rintro ⟨hentry, -, ⟨-, ⟨extra, rfl⟩, -, ⟨-, ⟨places, hplaces, rfl⟩, rfl⟩, rfl⟩, rfl⟩
      exact ⟨hentry, extra, places, hplaces, rfl⟩
    · rintro ⟨hentry, extra, places, hplaces, rfl⟩
      exact ⟨hentry, _, ⟨_, ⟨extra, rfl⟩, _, ⟨_, ⟨places, hplaces, rfl⟩, rfl⟩, rfl⟩, rfl⟩

/-! ### Writing what was read -/

/-- The first places of the ids of what is called. -/
def firstPlaces (l : Library) : List Nat := l.calls.map fun c => l.libraries.idxOf c.library

theorem callBytes_eq_ok {libraries : List String} {c : CallSite} {form : Bytes} :
    callBytes libraries c = .ok form ↔ c.library ∈ libraries ∧
      encodeAll (callFields c (libraries.idxOf c.library)) = .ok form := by
  rw [callBytes, Steps.bind_eq_ok, callFields, encodeAll_cons]
  by_cases hmem : c.library ∈ libraries
  · obtain ⟨place, hplace⟩ := Option.isSome_iff_exists.mp (List.isSome_idxOf?.mpr hmem)
    have hfirst : libraries.idxOf c.library = place := by
      rw [List.idxOf_eq_getD_idxOf?, hplace, Option.getD_some]
    simp only [hplace, hfirst, hmem, true_and, Steps.bind_eq_ok]
    constructor
    · rintro ⟨x, hx, y, hy, hform⟩
      exact ⟨x, y, hx, hy, (Except.ok.inj hform).symm⟩
    · rintro ⟨x, y, hx, hy, rfl⟩
      exact ⟨x, hx, y, hy, rfl⟩
  · have hnone : libraries.idxOf? c.library = none := List.idxOf?_eq_none_iff.mpr hmem
    simp only [hnone, hmem, false_and, iff_false, not_exists, not_and]
    rintro x - ⟨⟩

theorem mapM_callBytes {l : Library} {forms : List Bytes} :
    l.calls.mapM (callBytes l.libraries) = .ok forms ↔
      (∀ c ∈ l.calls, c.library ∈ l.libraries) ∧ List.Forall₂ (fun c x =>
        encodeAll (callFields c (l.libraries.idxOf c.library)) = .ok x) l.calls forms := by
  rw [Steps.mapM_eq_ok, ← List.forall₂_and_left]
  simp only [callBytes_eq_ok]

theorem callsFields_firstPlaces (l : Library) : l.callsFields l.firstPlaces =
    .u32 l.calls.length ::
      l.calls.flatMap fun c => callFields c (l.libraries.idxOf c.library) := by
  rw [callsFields, firstPlaces, List.zipWith_map_right, List.zipWith_self, List.flatMap]

theorem toBytes_eq_ok {l : Library} {raw : Bytes} : l.toBytes = .ok raw ↔
    (∀ c ∈ l.calls, c.library ∈ l.libraries) ∧
      encodeAll (l.fieldsWith [] l.firstPlaces) = .ok raw := by
  simp only [toBytes, Steps.bind_eq_ok, header_eq_ok, mapM_callBytes, fieldsWith, leadFields,
    encodeAll_append, encodeAll_singleton, encode_nested, callsFields_firstPlaces,
    encodeAll_cons (f := .u32 l.calls.length), encodeAll_flatMap]
  constructor
  · rintro ⟨x, hx, y, hy, n, hn, forms, ⟨hmem, hforms⟩, z, hz, hraw⟩
    refine ⟨hmem, x ++ y, z, ⟨x, y, hx, hy, rfl⟩,
      ⟨_, ⟨n, _, hn, ⟨forms, hforms, rfl⟩, rfl⟩, hz⟩, ?_⟩
    exact (Except.ok.inj hraw).symm
  · rintro ⟨hmem, -, z, ⟨x, y, hx, hy, rfl⟩, ⟨-, ⟨n, -, hn, ⟨forms, hforms, rfl⟩, rfl⟩, hz⟩, rfl⟩
    exact ⟨x, hx, y, hy, n, hn, forms, ⟨hmem, hforms⟩, z, hz, rfl⟩

/-- A smaller place takes a field of the same size. -/
theorem encode_callFields_of_le {c : CallSite} {place first : Nat} {x : Bytes} (hle : first ≤ place)
    (h : encodeAll (callFields c place) = .ok x) :
    ∃ y, encodeAll (callFields c first) = .ok y ∧ y.length = x.length := by
  simp only [callFields, encodeAll_cons, encodeAll_nil] at h ⊢
  obtain ⟨x₁, -, h₁, ⟨x₂, -, h₂, ⟨x₃, -, h₃, rfl, rfl⟩, rfl⟩, rfl⟩ := h
  obtain ⟨n, hn, hlt, rfl⟩ := number_eq_ok_iff.mp h₂
  obtain rfl : place = n := by exact_mod_cast hn
  have hfirst : number 2 first = .ok (Bytes.ofNat 2 first) := number_eq_ok (by omega)
  refine ⟨_, ⟨x₁, _, h₁, ⟨_, _, hfirst, ⟨x₃, _, h₃, rfl, rfl⟩, rfl⟩, rfl⟩, ?_⟩
  simp [Bytes.length_ofNat]

theorem encode_calls_of_le {firsts : CallSite → Nat} : ∀ {calls : List CallSite}
    {places : List Nat} {x : Bytes}, List.Forall₂ (fun c place => firsts c ≤ place) calls places →
    encodeAll (List.zipWith callFields calls places).flatten = .ok x →
    ∃ y, encodeAll (calls.flatMap fun c => callFields c (firsts c)) = .ok y ∧ y.length = x.length
  | [], [], x, _, h => ⟨x, h, rfl⟩
  | c :: calls, place :: places, x, .cons hle hrest, h => by
    obtain ⟨x₁, x₂, h₁, h₂, rfl⟩ := encodeAll_append.mp h
    obtain ⟨y₁, hy₁, hlen₁⟩ := encode_callFields_of_le hle h₁
    obtain ⟨y₂, hy₂, hlen₂⟩ := encode_calls_of_le hrest h₂
    refine ⟨y₁ ++ y₂, encodeAll_append.mpr ⟨y₁, y₂, hy₁, hy₂, rfl⟩, ?_⟩
    rw [List.length_append, List.length_append, hlen₁, hlen₂]

/-- The bytes of calls determine the places of their libraries. -/
theorem places_unique : ∀ {calls : List CallSite} {places others : List Nat} {x : Bytes},
    places.length = calls.length → others.length = calls.length →
    encodeAll (List.zipWith callFields calls places).flatten = .ok x →
    encodeAll (List.zipWith callFields calls others).flatten = .ok x → places = others
  | [], [], [], _, _, _, _, _ => rfl
  | c :: calls, place :: places, other :: others, x, hlen, hlen', h, h' => by
    obtain ⟨x₁, x₂, h₁, h₂, rfl⟩ := encodeAll_append.mp h
    obtain ⟨y₁, y₂, h₁', h₂', heq⟩ := encodeAll_append.mp h'
    have halike : List.Forall₂ Field.Alike (callFields c place) (callFields c other) :=
      .cons (.u32 _ _) (.cons (.u16 _ _) (.cons (.u32 _ _) .nil))
    obtain ⟨hfields, rfl⟩ := encodeAll_unique halike h₁ h₁' heq
    have hplace : place = other := by
      simp only [callFields, List.cons.injEq, Field.u16.injEq] at hfields
      exact_mod_cast hfields.2.1
    rw [hplace, places_unique (Nat.succ.inj hlen) (Nat.succ.inj hlen') h₂ h₂']

theorem idxOf_le {ids : List String} {id : String} {place : Nat} (h : ids[place]? = some id) :
    ids.idxOf id ≤ place := by
  by_contra hlt
  have hbefore : place < ids.findIdx (· == id) := Nat.lt_of_not_le hlt
  have hne := List.not_of_lt_findIdx hbefore
  obtain ⟨_, hget⟩ := List.getElem?_eq_some_iff.mp h
  simp [hget] at hne

theorem Places.mem {l : Library} {places : List Nat} (h : l.Places places) :
    ∀ c ∈ l.calls, c.library ∈ l.libraries := by
  intro c hc
  obtain ⟨place, -, hplace⟩ := Steps.exists_mem_right h c hc
  exact List.mem_of_getElem? hplace

theorem places_firstPlaces {l : Library} (h : ∀ c ∈ l.calls, c.library ∈ l.libraries) :
    l.Places l.firstPlaces :=
  List.forall₂_map_right_iff.mpr (List.forall₂_same.mpr fun c hc => List.getElem?_idxOf (h c hc))

/-- A library that was read can be written, without the bytes behind its names. -/
theorem exists_toBytes {l : Library} {extra raw : Bytes} {places : List Nat}
    (hplaces : l.Places places) (h : encodeAll (l.fieldsWith extra places) = .ok raw) :
    ∃ short, l.toBytes = .ok short ∧ raw.length = short.length + extra.length := by
  have hfirst : List.Forall₂ (fun c place => l.libraries.idxOf c.library ≤ place) l.calls places :=
    hplaces.imp fun c place hplace => idxOf_le hplace
  obtain ⟨lead, z, hlead, hz, rfl⟩ := encodeAll_append.mp h
  obtain ⟨x, y, hx, hy, rfl⟩ := encodeAll_append.mp hlead
  obtain ⟨names, rest, hnames, hrest, rfl⟩ := encodeAll_cons.mp hy
  obtain ⟨short, hshort, hlength⟩ := encode_nested_of_extra hnames
  obtain ⟨body, hbody, hform⟩ := encode_nested.mp (encodeAll_singleton.mp hz)
  obtain ⟨n, calls, hn, hcalls, rfl⟩ := encodeAll_cons.mp hbody
  obtain ⟨calls', hcalls', hlength'⟩ := encode_calls_of_le hfirst hcalls
  obtain ⟨hlt, rfl⟩ := counted_eq_ok_iff.mp hform
  have hcounted : counted 4 (n ++ calls') = .ok _ := counted_eq_ok (by
    rw [List.length_append, hlength', ← List.length_append]
    exact hlt)
  refine ⟨_, toBytes_eq_ok.mpr ⟨hplaces.mem, encodeAll_append.mpr ⟨x ++ (short ++ rest), _, ?_,
    encodeAll_singleton.mpr (encode_nested.mpr ⟨_, ?_, hcounted⟩), rfl⟩⟩, ?_⟩
  · refine encodeAll_append.mpr ⟨x, _, hx, encodeAll_cons.mpr ⟨short, rest, ?_, hrest, rfl⟩, rfl⟩
    exact hshort
  · rw [callsFields_firstPlaces]
    exact encodeAll_cons.mpr ⟨n, calls', hn, hcalls', rfl⟩
  · simp only [List.length_append, Bytes.length_ofNat, hlength', hlength]
    omega

/-- The bytes of a library file determine the places of its calls. -/
theorem eq_of_fieldsWith {l : Library} {raw : Bytes} {places others : List Nat}
    (hplaces : places.length = l.calls.length) (hothers : others.length = l.calls.length)
    (h : encodeAll (l.fieldsWith [] places) = .ok raw)
    (h' : encodeAll (l.fieldsWith [] others) = .ok raw) : places = others := by
  obtain ⟨x, y, hx, hy, rfl⟩ := encodeAll_append.mp h
  obtain ⟨x', y', hx', hy', heq⟩ := encodeAll_append.mp h'
  obtain rfl : x = x' := Except.ok.inj (hx.symm.trans hx')
  obtain rfl : y = y' := List.append_cancel_left heq
  obtain ⟨body, hbody, hform⟩ := encode_nested.mp (encodeAll_singleton.mp hy)
  obtain ⟨body', hbody', hform'⟩ := encode_nested.mp (encodeAll_singleton.mp hy')
  obtain ⟨rfl, -, -⟩ := reads_blob.unique (u := []) hform hform' rfl
  obtain ⟨n, calls, hn, hcalls, rfl⟩ := encodeAll_cons.mp hbody
  obtain ⟨n', calls', hn', hcalls', heq'⟩ := encodeAll_cons.mp hbody'
  obtain ⟨-, rfl⟩ := number_unique hn hn' heq'
  exact places_unique hplaces hothers hcalls hcalls'

theorem checkId_eq_ok {l m : Library} : checkId l = .ok m ↔ l.verify = .ok true ∧ m = l := by
  unfold checkId
  constructor
  · intro h
    split at h
    · next hverify => exact ⟨hverify, (Except.ok.inj h).symm⟩
    · cases h
    · split at h <;> cases h
  · rintro ⟨hverify, rfl⟩
    rw [hverify]

theorem ofBytes_eq_ok {l : Library} {raw : Bytes} : ofBytes raw = .ok l ↔
    l.verify = .ok true ∧ l.entry ≠ some (noEntry : Int) ∧
      ∃ extra places, l.Places places ∧ encodeAll (l.fieldsWith extra places) = .ok raw := by
  rw [ofBytes, Steps.bind_eq_ok]
  simp only [checkId_eq_ok, Steps.mapError_ok_iff, spells_read.readAll_eq_ok]
  constructor
  · rintro ⟨l, ⟨-, ⟨hentry, extra, places, hplaces, rfl⟩, hraw⟩, hverify, rfl⟩
    exact ⟨hverify, hentry, extra, places, hplaces, hraw⟩
  · rintro ⟨hverify, hentry, extra, places, hplaces, hraw⟩
    exact ⟨l, ⟨_, ⟨hentry, extra, places, hplaces, rfl⟩, hraw⟩, hverify, rfl⟩

/-- A library with the id of its content is read from its file. -/
theorem ofBytes_of_toBytes {l : Library} {raw : Bytes} (hverify : l.verify = .ok true)
    (hentry : l.entry ≠ some (noEntry : Int)) (h : l.toBytes = .ok raw) : ofBytes raw = .ok l := by
  obtain ⟨hmem, hraw⟩ := toBytes_eq_ok.mp h
  exact ofBytes_eq_ok.mpr ⟨hverify, hentry, [], l.firstPlaces, places_firstPlaces hmem, hraw⟩

end Library

/-- An object file with a byte behind the name in its section. -/
def Object.padded : Bytes :=
  Object.magic ++ [1, 0, 1, 0, 0, 0, 255, 255, 255, 255, 4, 0, 0, 0, 1, 0, 97, 0] ++
    List.replicate 8 0 ++ (List.replicate 4 [2, 0, 0, 0, 0, 0]).flatten ++ [4, 0, 0, 0, 0, 0, 0, 0]

/-- A library that lists one id twice and calls it. -/
def Library.doubled : Library where
  id := "sha256:a47f8a1bc0d3c7825d89cd1df59335bfdb0f072265fbb8d50602a591908f4ca3"
  mask := 1
  code := [5, 1, 0, 0, 0, 0, 0, 0]
  data := []
  libraries := List.replicate 2 ("sha256:" ++ String.ofList (List.replicate 64 '0'))
  calls := [⟨1, "sha256:" ++ String.ofList (List.replicate 64 '0'), 0⟩]
  name := "x"

/-- The call of a library that is listed twice may give either place. -/
theorem Library.exists_doubled_file : ∃ raw, ofBytes raw = .ok doubled ∧
    Wire.encodeAll (doubled.fieldsWith [] [1]) = .ok raw := by
  obtain ⟨raw, hraw⟩ := Steps.exists_of_isOk
    (by decide +kernel : (Wire.encodeAll (doubled.fieldsWith [] [1])).isOk = true)
  refine ⟨raw, ofBytes_eq_ok.mpr ⟨by decide +kernel, by decide, [], [1], ?_, hraw⟩, hraw⟩
  exact .cons rfl .nil

/-- **What is read from a file is always written again**, and to the bytes of the file exactly if
nothing stands behind the names in their section and, in a library, every call gives the first
place of the id of its library. -/
theorem toBytes_of_ofBytes_iff (raw : Bytes) :
    (∀ o, Object.ofBytes raw = .ok o → ∃ extra,
      Wire.encodeAll (o.fieldsWith extra) = .ok raw ∧
      (∃ written, o.toBytes = .ok written ∧ raw.length = written.length + extra.length) ∧
      (o.toBytes = .ok raw ↔ extra = [])) ∧
    ∀ l, Library.ofBytes raw = .ok l → ∃ extra places, l.Places places ∧
      Wire.encodeAll (l.fieldsWith extra places) = .ok raw ∧
      (∃ written, l.toBytes = .ok written ∧ raw.length = written.length + extra.length) ∧
      (l.toBytes = .ok raw ↔ extra = [] ∧ places = l.firstPlaces) := by
  have hempty : ∀ {written extra : Bytes}, raw.length = written.length + extra.length →
      written = raw → extra = [] := by
    rintro written extra hlength rfl
    exact List.length_eq_zero_iff.mp (by omega)
  constructor
  · intro o h
    obtain ⟨-, extra, hraw⟩ := Object.ofBytes_eq_ok.mp h
    obtain ⟨written, hwritten, hlength⟩ := Object.exists_toBytes hraw
    refine ⟨extra, hraw, ⟨written, hwritten, hlength⟩, ?_, ?_⟩
    · intro hsame
      exact hempty hlength (Except.ok.inj (hwritten.symm.trans hsame))
    · rintro rfl
      exact Object.toBytes_eq_ok.mpr hraw
  · intro l h
    obtain ⟨-, -, extra, places, hplaces, hraw⟩ := Library.ofBytes_eq_ok.mp h
    obtain ⟨written, hwritten, hlength⟩ := Library.exists_toBytes hplaces hraw
    refine ⟨extra, places, hplaces, hraw, ⟨written, hwritten, hlength⟩, ?_, ?_⟩
    · intro hsame
      obtain rfl := hempty hlength (Except.ok.inj (hwritten.symm.trans hsame))
      refine ⟨rfl, Library.eq_of_fieldsWith hplaces.length_eq.symm ?_ hraw
        (Library.toBytes_eq_ok.mp hsame).2⟩
      exact List.length_map ..
    · rintro ⟨rfl, rfl⟩
      exact Library.toBytes_eq_ok.mpr ⟨hplaces.mem, hraw⟩

theorem toBytes_of_ofBytes_padded_and_doubled :
    (∃ o, Object.ofBytes Object.padded = .ok o ∧ ∃ extra,
      Wire.encodeAll (o.fieldsWith extra) = .ok Object.padded ∧
      (o.toBytes = .ok Object.padded ↔ extra = [])) ∧
    ∃ raw, Library.ofBytes raw = .ok .doubled ∧ ∃ extra places,
      Wire.encodeAll (Library.doubled.fieldsWith extra places) = .ok raw ∧
      (Library.doubled.toBytes = .ok raw ↔ extra = [] ∧ places = Library.doubled.firstPlaces) := by
  obtain ⟨o, ho⟩ := Steps.exists_of_isOk
    (by decide +kernel : (Object.ofBytes Object.padded).isOk = true)
  obtain ⟨extra, hextra, -, hobject⟩ := (toBytes_of_ofBytes_iff Object.padded).1 o ho
  obtain ⟨raw, hraw, -⟩ := Library.exists_doubled_file
  obtain ⟨extra', places, -, hplaces, -, hlibrary⟩ := (toBytes_of_ofBytes_iff raw).2 _ hraw
  exact ⟨⟨o, ho, extra, hextra, hobject⟩, raw, hraw, extra', places, hplaces, hlibrary⟩

/-- There are files of both kinds that are read and written to other bytes. -/
theorem padded_and_doubled_change :
    (∃ o, Object.ofBytes Object.padded = .ok o ∧ o.toBytes ≠ .ok Object.padded) ∧
    ∃ raw, Library.ofBytes raw = .ok .doubled ∧ Library.doubled.toBytes ≠ .ok raw := by
  constructor
  · refine ⟨{ name := "a", mask := 1, code := [], data := [] }, ?_, ?_⟩ <;> decide +kernel
  · obtain ⟨raw, hraw, hfile⟩ := Library.exists_doubled_file
    refine ⟨raw, hraw, fun hsame => ?_⟩
    have hplaces : [1] = Library.doubled.firstPlaces :=
      Library.eq_of_fieldsWith rfl rfl hfile (Library.toBytes_eq_ok.mp hsame).2
    exact absurd hplaces (by decide +kernel)

end AluVM
