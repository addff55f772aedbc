import AluVM.Proofs.LibraryFiles
import AluVM.Proofs.Linking
import Mathlib.Data.Set.Function

/-! # Ids stand for contents

The content of a library is written so that it can be read in one way only: the line of its
extensions, two byte strings behind their lengths, and a counted list of ids in normal form. So
contents with the same bytes agree in all of these (`Library.content_eq_iff`). A library that was
built, linked or loaded has the id of its content (`Library.Addressed.contentId`), and as far as a
digest tells contents apart, so do ids. -/

namespace AluVM

/-! ### The line of the extensions -/

/-- The line of the names of its extensions determines a mask. -/
theorem Mask.manifest_inj {m n : Mask} {line : String} (hm : m.manifest = .ok line)
    (hn : n.manifest = .ok line) : m = n := by
  have hknown : ∀ {k : Mask}, k.manifest = .ok line → k.Known := by
    intro k hk
    obtain ⟨names, hnames, -⟩ := Steps.map_eq_ok.mp hk
    exact known_of_names hnames
  obtain ⟨a, ha, rfl⟩ := hknown hm
  obtain ⟨b, hb, rfl⟩ := hknown hn
  have hall : ∀ a < 2 ^ 4, ∀ b < 2 ^ 4,
      Mask.manifest (Int.ofNat a) = Mask.manifest (Int.ofNat b) → a = b := by
    decide +kernel
  rw [hall a ha b hb (hm.trans hn.symm)]

/-! ### Ids and digests -/

namespace ContentId

theorem Strategy.eq_of_name {s t : Strategy} (hs : s ∈ known) (ht : t ∈ known)
    (h : s.name = t.name) : s = t := by
  simp only [known, List.mem_cons, List.not_mem_nil, or_false] at hs ht
  rcases hs with rfl | rfl <;> rcases ht with rfl | rfl
  · rfl
  · exact absurd h (by decide)
  · exact absurd h (by decide)
  · rfl

theorem Strategy.split?_contentId {s : Strategy} (hs : s ∈ known) {content : Bytes} {id : String}
    (h : s.contentId content = .ok id) : split? id = some (s.name, s.digest content) := by
  have hlength := s.length_digest hs content
  rw [contentId, render, if_pos hlength] at h
  rw [← Except.ok.inj h, split?_canonical hs hlength]

/-- An id determines its algorithm and the digest. -/
theorem Strategy.contentId_unique {s t : Strategy} (hs : s ∈ known) (ht : t ∈ known)
    {x y : Bytes} {id : String} (hx : s.contentId x = .ok id) (hy : t.contentId y = .ok id) :
    s = t ∧ s.digest x = s.digest y := by
  have h := (s.split?_contentId hs hx).symm.trans (t.split?_contentId ht hy)
  obtain ⟨hname, hdigest⟩ := Prod.mk.inj (Option.some.inj h)
  obtain rfl := Strategy.eq_of_name hs ht hname
  exact ⟨rfl, hdigest⟩

end ContentId

/-! ### Contents -/

namespace Library

open Wire

theorem idFields_eq_ok_iff {ids : List String} {form : Bytes} : idFields ids = .ok form ↔
    ∃ normal, ids.mapM ContentId.normalize = .ok normal ∧
      encodeAll (normal.map Field.text) = .ok form := by
  rw [idFields, Steps.bind_eq_ok]
  simp only [Steps.mapM_eq_ok, List.map_eq_flatMap, encodeAll_flatMap, encodeAll_singleton]
  constructor
  · rintro ⟨forms, hforms, h⟩
    have hsteps : List.Forall₂ (fun id x => ∃ normal, ContentId.normalize id = .ok normal ∧
        (Field.text normal).encode = .ok x) ids forms := by
      refine hforms.imp fun id x hx => ?_
      rcases hid : ContentId.normalize id with e | normal
      · rw [hid] at hx
        cases hx
      · rw [hid] at hx
        exact ⟨normal, rfl, hx⟩
    obtain ⟨normal, hnormal, hencoded⟩ := Steps.forall₂_comp.mp hsteps
    exact ⟨normal, hnormal, forms, hencoded, (Except.ok.inj h).symm⟩
  · rintro ⟨normal, hnormal, forms, hforms, rfl⟩
    refine ⟨forms, (Steps.forall₂_comp.mpr ⟨normal, hnormal, hforms⟩).imp ?_, rfl⟩
    rintro id x ⟨n, hn, hx⟩
    rw [hn]
    exact hx

/-- The fields of a content behind the text at its start. -/
def contentFields (line : String) (code data : Bytes) (ids : List String) : List Field :=
  [.text line, .blob code, .blob data, .u16 ids.length] ++ ids.map .text

theorem canonicalBytes_eq_ok {mask : Mask} {code data content : Bytes} {ids : List String} :
    canonicalBytes mask code data ids = .ok content ↔ ∃ line normal form,
      mask.manifest = .ok line ∧ ids.mapM ContentId.normalize = .ok normal ∧
      encodeAll (contentFields line code data normal) = .ok form ∧
      content = contentTag ++ form := by
  unfold canonicalBytes
  rcases mask.manifest with e | line
  · simp
  simp only [Steps.bind_eq_ok, idFields_eq_ok_iff, contentFields, encodeAll_append]
  have hlength : ∀ {normal}, ids.mapM ContentId.normalize = .ok normal →
      normal.length = ids.length := by
    intro normal h
    exact (Steps.mapM_eq_ok.mp h).length_eq.symm
  constructor
  · rintro ⟨x, hx, y, ⟨normal, hnormal, hy⟩, h⟩
    refine ⟨line, normal, x ++ y, rfl, hnormal, ⟨x, y, ?_, hy, rfl⟩, ?_⟩
    · rw [hlength hnormal]
      exact hx
    · rw [← Except.ok.inj h, List.append_assoc]
  · rintro ⟨line', normal, -, hline, hnormal, ⟨x, y, hx, hy, rfl⟩, rfl⟩
    obtain rfl := Except.ok.inj hline
    rw [hlength hnormal] at hx
    refine ⟨x, hx, y, ⟨normal, hnormal, hy⟩, ?_⟩
    rw [← List.append_assoc]
    rfl

/-- The bytes of a content determine its fields. -/
theorem contentFields_unique {line line' : String} {code code' data data' form : Bytes}
    {ids ids' : List String} (h : encodeAll (contentFields line code data ids) = .ok form)
    (h' : encodeAll (contentFields line' code' data' ids') = .ok form) :
    line = line' ∧ code = code' ∧ data = data' ∧ ids = ids' := by
  obtain ⟨x, y, hx, hy, rfl⟩ := encodeAll_append.mp h
  obtain ⟨x', y', hx', hy', heq⟩ := encodeAll_append.mp h'
  have halike : List.Forall₂ Field.Alike [.text line, .blob code, .blob data, .u16 ids.length]
      [.text line', .blob code', .blob data', .u16 ids'.length] :=
    .cons (.text ..) (.cons (.blob ..) (.cons (.blob ..) (.cons (.u16 ..) .nil)))
  obtain ⟨hfields, rfl⟩ := encodeAll_unique halike hx hx' heq
  simp only [List.cons.injEq, Field.text.injEq, Field.blob.injEq, Field.u16.injEq, Int.natCast_inj,
    and_true] at hfields
  obtain ⟨rfl, rfl, rfl, hlength⟩ := hfields
  -- The number of ids is part of the content, so the lists of ids are fields of the same kinds.
  have hids : List.Forall₂ Field.Alike (ids.map .text) (ids'.map .text) := by
    rw [List.forall₂_map_left_iff, List.forall₂_map_right_iff, List.forall₂_iff_get]
    exact ⟨hlength, fun _ _ _ => .text ..⟩
  obtain ⟨htexts, -⟩ := encodeAll_unique (u := []) hids hy hy' rfl
  exact ⟨rfl, rfl, rfl, List.map_injective_iff.mpr (fun _ _ => Field.text.inj) htexts⟩

/-- Libraries agree in everything that an id stands for. -/
structure SameContent (l m : Library) : Prop where
  mask : l.mask = m.mask
  code : l.code = m.code
  data : l.data = m.data
  libraries : l.libraries.mapM ContentId.normalize = m.libraries.mapM ContentId.normalize

/-- **The bytes of a content determine the content.** -/
theorem content_eq_iff {l m : Library} {x y : Bytes} (hx : l.content = .ok x)
    (hy : m.content = .ok y) : x = y ↔ l.SameContent m := by
  obtain ⟨line, ids, form, hline, hids, hform, rfl⟩ := canonicalBytes_eq_ok.mp hx
  obtain ⟨line', ids', form', hline', hids', hform', rfl⟩ := canonicalBytes_eq_ok.mp hy
  constructor
  · intro heq
    obtain rfl : form = form' := List.append_cancel_left heq
    obtain ⟨rfl, hcode, hdata, rfl⟩ := contentFields_unique hform hform'
    exact ⟨Mask.manifest_inj hline hline', hcode, hdata, hids.trans hids'.symm⟩
  · rintro ⟨hmask, hcode, hdata, hlibraries⟩
    rw [hmask, hline'] at hline
    rw [hlibraries, hids'] at hids
    obtain rfl := Except.ok.inj hline
    obtain rfl := Except.ok.inj hids
    rw [hcode, hdata, hform'] at hform
    rw [Except.ok.inj hform]

/-! ### Libraries with the id of their content -/

/-- A library that was built, linked or loaded, and the algorithm of its id. -/
inductive Addressed : ContentId.Strategy → Library → Prop
  | built {s : ContentId.Strategy} {l m : Library} (hs : s ∈ ContentId.Strategy.known)
      (h : build s m = .ok l) : Addressed s l
  | linked {s : ContentId.Strategy} {o : Object} {env : Environment} {l : Library}
      (hs : s ∈ ContentId.Strategy.known) (h : linkObject o env s = .ok l) : Addressed s l
  | loaded {s : ContentId.Strategy} {raw : Bytes} {l : Library} (h : ofBytes raw = .ok l)
      (hs : ContentId.strategyOf l.id = .ok s) : Addressed s l

theorem contentId_of_build {s : ContentId.Strategy} {l m : Library} (h : build s m = .ok l) :
    ∃ content, l.content = .ok content ∧ s.contentId content = .ok l.id := by
  obtain ⟨libraries, -, h⟩ := Steps.bind_eq_ok.mp h
  obtain ⟨content, hcontent, h⟩ := Steps.bind_eq_ok.mp h
  obtain ⟨id, hid, h⟩ := Steps.bind_eq_ok.mp h
  cases h
  exact ⟨content, hcontent, Steps.mapError_ok_iff.mp hid⟩

/-- **A library that was built, linked or loaded has the id of its content.** -/
theorem Addressed.contentId {s : ContentId.Strategy} {l : Library} (h : Addressed s l) :
    s ∈ ContentId.Strategy.known ∧
      ∃ content, l.content = .ok content ∧ s.contentId content = .ok l.id := by
  cases h with
  | built hs h => exact ⟨hs, contentId_of_build h⟩
  | linked hs h =>
    rw [linkObject_eq] at h
    obtain ⟨-, _, _, j, -, -, -, hlibrary⟩ := Linker.linkFrom_eq_ok.mp h
    exact ⟨hs, contentId_of_build hlibrary⟩
  | loaded h hs =>
    obtain ⟨t, content, ht, hcontent, hid⟩ := verify_eq_ok_true.mp (ofBytes_eq_ok.mp h).1
    obtain rfl : s = t := Except.ok.inj (hs.symm.trans ht)
    exact ⟨ContentId.mem_known_of_strategyOf hs, content, hcontent, hid⟩

/-- **Ids stand for contents.** No digest of a fixed size tells all byte strings apart; let the
known ones tell the contents of a set apart. Then libraries with contents in the set have the same
id exactly if their algorithm is the same and so are their extensions, their code, their data and
the normal forms of the ids that they list. Names, exports, entries and calls play no part. -/
theorem id_eq_iff_of_injOn {S : Set Bytes}
    (hS : ∀ s ∈ ContentId.Strategy.known, Set.InjOn s.digest S) {s t : ContentId.Strategy}
    {l m : Library} (hl : Addressed s l) (hm : Addressed t m)
    (hlS : ∀ content, l.content = .ok content → content ∈ S)
    (hmS : ∀ content, m.content = .ok content → content ∈ S) :
    l.id = m.id ↔ s = t ∧ l.mask = m.mask ∧ l.code = m.code ∧ l.data = m.data ∧
      l.libraries.mapM ContentId.normalize = m.libraries.mapM ContentId.normalize := by
  obtain ⟨hs, x, hx, hxid⟩ := hl.contentId
  obtain ⟨ht, y, hy, hyid⟩ := hm.contentId
  constructor
  · intro hid
    rw [← hid] at hyid
    obtain ⟨rfl, hdigest⟩ := ContentId.Strategy.contentId_unique hs ht hxid hyid
    have hcontent : x = y := hS s hs (hlS x hx) (hmS y hy) hdigest
    obtain ⟨hmask, hcode, hdata, hlibraries⟩ := (content_eq_iff hx hy).mp hcontent
    exact ⟨rfl, hmask, hcode, hdata, hlibraries⟩
  · rintro ⟨rfl, hmask, hcode, hdata, hlibraries⟩
    obtain rfl : x = y := (content_eq_iff hx hy).mpr ⟨hmask, hcode, hdata, hlibraries⟩
    exact Except.ok.inj (hxid.symm.trans hyid)

/-- A library of one instruction. -/
def single (name : String) (data : Bytes) : Library where
  id := ""
  mask := Mask.base
  code := [1, 0, 0, 0, 0, 0, 0, 0]
  data := data
  name := name

/-- The content of the library of one instruction. -/
def singleContent (data : Bytes) : Bytes :=
  match (single "" data).content with
  | .ok content => content
  | .error _ => []

theorem content_single (name id : String) {data : Bytes} (h : data.length < 2 ^ 32) :
    { single name data with id }.content = .ok (singleContent data) := by
  obtain ⟨content, hcontent⟩ : ∃ content, (single "" data).content = .ok content :=
    exists_canonicalBytes ⟨1, by decide, rfl⟩ (by decide : 8 < 2 ^ 32) h (by decide : 0 < 2 ^ 16)
      (by simp [single])
  have hvalue : singleContent data = content := by
    unfold singleContent
    simp only [hcontent]
  rw [hvalue]
  exact hcontent

theorem exists_build_single (name : String) {data : Bytes} (h : data.length < 2 ^ 32) :
    ∃ id, build .sha256 (single name data) = .ok { single name data with id } := by
  obtain ⟨id, hid, -⟩ := exists_build (l := single name data) List.mem_cons_self ⟨1, by decide, rfl⟩
    (by decide : 8 < 2 ^ 32) h (by decide : 0 < 2 ^ 16) (by simp [single])
  exact ⟨id, hid⟩

/-- Two libraries that differ in name have the same id, and two that differ in data have not. -/
theorem ids_of_single : ∃ l m n, build .sha256 (single "a" []) = .ok l ∧
    build .sha256 (single "b" []) = .ok m ∧ build .sha256 (single "a" [7]) = .ok n ∧
      l.id = m.id ∧ l.id ≠ n.id := by
  have hS : ∀ s ∈ ContentId.Strategy.known,
      Set.InjOn s.digest {singleContent [], singleContent [7]} := by
    intro s hs
    have hne : s.digest (singleContent []) ≠ s.digest (singleContent [7]) := by
      simp only [ContentId.Strategy.known, List.mem_cons, List.not_mem_nil, or_false] at hs
      rcases hs with rfl | rfl <;> decide +kernel
    rintro x (rfl | rfl) y (rfl | rfl) h
    · rfl
    · exact absurd h hne
    · exact absurd h.symm hne
    · rfl
  have hin : ∀ name id, ∀ data ∈ [[], [7]], ∀ content,
      { single name data with id }.content = .ok content →
        content ∈ ({singleContent [], singleContent [7]} : Set Bytes) := by
    intro name id data hdata content h
    simp only [List.mem_cons, List.not_mem_nil, or_false] at hdata
    rcases hdata with rfl | rfl
    · exact Or.inl (Except.ok.inj (h.symm.trans (content_single name id (by decide))))
    · exact Or.inr (Except.ok.inj (h.symm.trans (content_single name id (by decide))))
  have hknown : ContentId.Strategy.sha256 ∈ ContentId.Strategy.known := List.mem_cons_self
  obtain ⟨i, hi⟩ := exists_build_single "a" (by decide : ([] : Bytes).length < 2 ^ 32)
  obtain ⟨j, hj⟩ := exists_build_single "b" (by decide : ([] : Bytes).length < 2 ^ 32)
  obtain ⟨k, hk⟩ := exists_build_single "a" (by decide : ([7] : Bytes).length < 2 ^ 32)
  refine ⟨_, _, _, hi, hj, hk, ?_, ?_⟩
  · refine (id_eq_iff_of_injOn hS (.built hknown hi) (.built hknown hj) (hin _ _ _ (by simp))
      (hin _ _ _ (by simp))).mpr ?_
    exact ⟨rfl, rfl, rfl, rfl, rfl⟩
  · intro heq
    obtain ⟨-, -, -, hdata, -⟩ := (id_eq_iff_of_injOn hS (.built hknown hi) (.built hknown hk)
      (hin _ _ _ (by simp)) (hin _ _ _ (by simp))).mp heq
    cases hdata

end Library

end AluVM
