import AluVM.Proofs.LibraryFiles
import AluVM.Proofs.ManifestFiles
import AluVM.Proofs.MergedObjects
import AluVM.Proofs.Reading

/-! # Linking what files hold

A file can spell an object that no program has: fields outside the code, symbols out of reach,
labels that are not there. Merging and linking report all of this. Two things that a file can
spell are not reported (`Stray`): bits of a mask that belong to no extension, and an id, fixed for
a library, that is no id. They come up where the names of extensions are needed and where ids are
compared, and the failure of that function is passed on.

What an object brings into the linker is followed by `Object.Drawn`: its integers are small enough
to be shown, and what is stray in it comes from one of the objects that were read. Merging keeps
this (`Merge.mergeObjects_yields`), and the environment of a manifest has it as well, since it is
made from files and its libraries were checked against their ids when they were read. -/

namespace AluVM

open Linker Steps

/-! ### Failures -/

/-- One of the objects fixes a library to an id. -/
def FixedBy (os : List Object) (id : String) : Prop :=
  ∃ o ∈ os, ∃ ref ∈ o.libraries, ref.id = some id

/-- **What is not reported**: bits of no extension in the mask of an object, and an id that an
object fixes for a library and that is none. -/
inductive Stray (os : List Object) : Failure → Prop where
  | bits (hos : ∃ o ∈ os, ¬ o.mask.Known) (mask : Mask) :
      Stray os (.extension (.unknownBits mask))
  | pin {id : String} (hid : FixedBy os id) (hsplit : ContentId.split? id = none) :
      Stray os (.id (.malformed id))

/-- The failure has a report, or it is a stray one. -/
def Traced (os : List Object) (e : Failure) : Prop := e.diagnostic?.isSome = true ∨ Stray os e

section Traced
variable {os : List Object}

theorem traced_link (e : LinkError) : Traced os (.link e) := Or.inl rfl

/-- A failure that shows small integers is what it is. -/
theorem Failure.checked_eq {e : Failure} (h : ∀ v ∈ e.shown, v.natAbs < 2 ^ 33) :
    e.checked = e := by
  have hshown : e.shown.any Numeral.isOverlong = false := by
    refine List.any_eq_false.mpr fun v hv => ?_
    rw [Numeral.not_isOverlong ((h v hv).le.trans (by decide))]
    decide
  rw [Failure.checked, hshown]
  rfl

theorem covers_traced : Failure.Covers (fun v => v.natAbs < 2 ^ 33) (Traced os) := by
  intro cause hcause
  rw [Failure.internal, Failure.checked_eq (e := .encoding { cause }) hcause]
  exact Or.inl rfl

end Traced

/-! ### Objects and libraries of files -/

namespace Wire

section Fields
variable {fs : List Field} {form : Bytes}

theorem natAbs_lt_of_u32 {v : Int} (h : encodeAll fs = .ok form) (hv : .u32 v ∈ fs) :
    v.natAbs < 2 ^ 32 := by
  obtain ⟨x, hx⟩ := encode_of_mem h _ hv
  obtain ⟨n, rfl, hn, -⟩ := number_eq_ok_iff.mp hx
  exact hn

theorem length_lt_of_blob {bytes : Bytes} (h : encodeAll fs = .ok form) (hb : .blob bytes ∈ fs) :
    bytes.length < 2 ^ 32 := by
  obtain ⟨x, hx⟩ := encode_of_mem h _ hb
  exact (counted_eq_ok_iff.mp hx).1

theorem exists_of_nested {gs : List Field} (h : encodeAll fs = .ok form) (hg : .nested gs ∈ fs) :
    ∃ body, encodeAll gs = .ok body := by
  obtain ⟨x, hx⟩ := encode_of_mem h _ hg
  obtain ⟨body, hbody, -⟩ := encode_nested.mp hx
  exact ⟨body, hbody⟩

theorem natAbs_lt_of_symbolFields {xs : List ObjectSymbol} (h : encodeAll fs = .ok form)
    (hxs : .nested (symbolFields xs) ∈ fs) : ∀ x ∈ xs, x.value.natAbs < 2 ^ 32 := by
  intro x hx
  obtain ⟨body, hbody⟩ := exists_of_nested h hxs
  refine natAbs_lt_of_u32 hbody (List.mem_cons_of_mem _ ?_)
  exact List.mem_flatMap.mpr ⟨x, hx, by simp⟩

end Fields

end Wire

/-- An object whose segments fit their length fields and whose integers stay below a bound. -/
structure Object.Bounded (bound : Nat) (o : Object) : Prop where
  code : o.code.length < 2 ^ 32
  data : o.data.length < 2 ^ 32
  shows : o.Shows fun v => v.natAbs < bound

open Wire in
theorem Object.bounded_of_ofBytes {raw : Bytes} {o : Object} (h : ofBytes raw = .ok o) :
    o.Bounded (2 ^ 32) := by
  obtain ⟨-, extra, hraw⟩ := ofBytes_eq_ok.mp h
  have hmem : ∀ f ∈ o.fields.tail, f ∈ o.fieldsWith extra := fun f hf =>
    List.mem_append_right _ (List.mem_cons_of_mem _ hf)
  refine ⟨length_lt_of_blob hraw (hmem _ (by simp [fields])),
    length_lt_of_blob hraw (hmem _ (by simp [fields])), ⟨fun r hr => ?_, fun x hx => ?_⟩⟩
  · obtain ⟨body, hbody⟩ := exists_of_nested hraw
      (hmem (.nested (.u32 o.relocations.length :: o.relocations.flatMap fun r =>
        [.u32 r.offset, .u8 r.kind.code, .text r.target])) (by simp [fields]))
    refine natAbs_lt_of_u32 hbody (List.mem_cons_of_mem _ ?_)
    exact List.mem_flatMap.mpr ⟨r, hr, List.mem_cons_self⟩
  · rcases List.mem_append.mp hx with hx | hx
    · exact natAbs_lt_of_symbolFields hraw (hmem _ (by simp [fields])) x hx
    · exact natAbs_lt_of_symbolFields hraw (hmem _ (by simp [fields])) x hx

/-- An object that holds nothing stray but what some objects hold. -/
structure Object.Drawn (os : List Object) (o : Object) : Prop where
  bounded : o.Bounded (2 ^ 33)
  mask : (∀ d ∈ os, d.mask.Known) → o.mask.Known
  pins : ∀ ref ∈ o.libraries, ∀ id ∈ ref.id, FixedBy os id

/-- A library whose calls can be filled or refused: its extensions have names, its id is in normal
form, and its offsets can be shown. -/
structure Library.Usable (l : Library) : Prop where
  mask : l.mask.Known
  canonical : ContentId.Canonical l.id
  exports : ∀ x ∈ l.exports, x.value.natAbs < 2 ^ 33

open Wire in
theorem Library.usable_of_ofBytes {raw : Bytes} {l : Library} (h : ofBytes raw = .ok l) :
    l.Usable := by
  obtain ⟨hverify, -, extra, places, -, hraw⟩ := ofBytes_eq_ok.mp h
  obtain ⟨hmask, hid⟩ := canonical_of_verify hverify
  refine ⟨hmask, hid, fun x hx => ?_⟩
  have hvalues : ∀ x ∈ l.exports, x.value.natAbs < 2 ^ 32 :=
    natAbs_lt_of_symbolFields hraw (by simp [fieldsWith, leadFields])
  exact (hvalues x hx).trans (by decide)

section Drawn
variable {os : List Object} {o : Object}

theorem Object.Bounded.drawn (h : o.Bounded (2 ^ 32)) (ho : o ∈ os) : o.Drawn os where
  bounded := by
    refine ⟨h.code, h.data, ⟨fun r hr => ?_, fun x hx => ?_⟩⟩
    · exact (h.shows.offset r hr).trans (by decide)
    · exact (h.shows.value x hx).trans (by decide)
  mask hos := hos o ho
  pins ref href id hid := ⟨o, ho, ref, href, hid⟩

theorem Object.Drawn.stray_bits (h : o.Drawn os) (hmask : ¬ o.mask.Known) (mask : Mask) :
    Stray os (.extension (.unknownBits mask)) := by
  refine .bits ?_ mask
  by_contra hall
  push Not at hall
  exact hmask (h.mask hall)

/-- A comparison with an id fails in one way. -/
theorem FixedBy.normalize_yields {id : String} (h : FixedBy os id) :
    Yields (fun _ => True) (Traced os) ((ContentId.normalize id).mapError .id) := by
  rcases hsplit : ContentId.split? id with _ | ⟨algorithm, digest⟩
  · rw [ContentId.normalize, hsplit]
    exact Or.inr (.pin h hsplit)
  · rw [ContentId.normalize, hsplit]
    trivial

end Drawn

/-! ### Linking -/

/-- An environment that holds nothing stray but what some objects hold. -/
structure Environment.Drawn (os : List Object) (env : Environment) : Prop where
  mask : env.mask.Known
  objects : ∀ x ∈ env.objects, x.2.Drawn os
  libraries : ∀ x ∈ env.libraries, x.2.Usable

theorem Environment.Loaded.drawn {env : Environment} (h : env.Loaded) {os : List Object}
    (hos : ∀ x ∈ env.objects, x.2 ∈ os) : env.Drawn os where
  mask := h.mask
  objects x hx := by
    obtain ⟨raw, hraw⟩ := h.objects x hx
    exact (Object.bounded_of_ofBytes hraw).drawn (hos x hx)
  libraries x hx := by
    obtain ⟨raw, hraw⟩ := h.libraries x hx
    exact Library.usable_of_ofBytes hraw

/-- Filling a field keeps what is known of a job. -/
theorem Job.Of.fills {o : Object} {j j' : Job} (hj : j.Of o) {r : Relocation} {field : Bytes}
    (h : Job.Fills r field j j') (hids : ∀ id ∈ j'.libraries, ContentId.Canonical id)
    (hlength : j'.libraries.length ≤ Job.maxLibraries) : j'.Of o where
  object := h.object.trans hj.object
  size := by
    rw [h.code, Job.size_overwrite]
    exact hj.size
  libraries := hids
  length := hlength

section Link
variable {os : List Object} {env : Environment} {s : ContentId.Strategy} {o : Object}
  {f : String → Except Failure Library}

theorem Object.Drawn.resolve_yields (ho : o.Drawn os) {r : Relocation} (hr : r ∈ o.relocations)
    {value : Object → String → Except Failure Int}
    (hvalue : Yields (fun v => v.natAbs < 2 ^ 33) (Traced os) (value o r.target)) {j : Job}
    (hj : j.Of o) : Yields (Job.Of o) (Traced os) (j.resolve value r) := by
  have hoffset := ho.bounded.shows.offset r hr
  refine (Job.resolve_covered covers_traced hoffset (hj.object ▸ hvalue)).of_ok fun j' h => ?_
  obtain ⟨_, -, -, -, hfills, hlibraries, -⟩ := Job.resolve_eq_ok h
  exact hj.fills hfills (hlibraries ▸ hj.libraries) (hlibraries ▸ hj.length)

theorem Object.Drawn.resolveCall_yields (ho : o.Drawn os) {r : Relocation}
    (hr : r ∈ o.relocations) {j : Job} (hj : j.Of o) {id : String}
    (hid : ContentId.Canonical id) {routine : Int} (hroutine : routine.natAbs < 2 ^ 33) :
    Yields (fun x => x.2.Of o) (Traced os) (j.resolveCall r id routine) := by
  have hoffset := ho.bounded.shows.offset r hr
  have hyields : Yields (fun _ => True) (Traced os) (j.resolveCall r id routine) :=
    Job.resolveCall_covered covers_traced (traced_link _) hoffset id hroutine
  refine hyields.of_ok fun x h => ?_
  obtain ⟨-, -, -, -, hlength, hfills, -, hmem⟩ := Job.resolveCall_eq_ok h
  refine hj.fills hfills (fun id' hid' => ?_) (hlength hj.length)
  rcases (hmem id').mp hid' with hid' | rfl
  · exact hj.libraries id' hid'
  · exact hid

/-- An id that an object fixes is compared with the one that is found. -/
theorem Object.Drawn.checkPin_yields (ho : o.Drawn os) (name target : String) (l : Library) :
    Yields (fun _ => True) (Traced os) (checkPin (o.libraryId? name) name target l) := by
  rcases hpinned : o.libraryId? name with _ | id
  · trivial
  · obtain ⟨ref, href, hid⟩ := Option.bind_eq_some_iff.mp hpinned
    have hnormal := (ho.pins ref (List.mem_of_find?_eq_some href) id hid).normalize_yields
    rcases hnormalize : ContentId.normalize id with e | normal
    · rw [hnormalize] at hnormal
      simp only [checkPin, hnormalize]
      exact hnormal
    · simp only [checkPin, hnormalize]
      split_ifs
      · trivial
      · exact traced_link _

theorem supports_traced {mask : Mask} (h : mask.Known) (who : String) :
    Yields (fun _ => True) (Traced os) (supports env mask who) :=
  (supports_yields h env who).imp (fun _ _ => trivial) fun e he => by
    cases he <;> exact traced_link _

theorem Object.Drawn.fillCall_yields (ho : o.Drawn os) (henv : env.Drawn os)
    (hf : ∀ name, Yields Library.Usable (Traced os) (f name)) {r : Relocation}
    (hr : r ∈ o.relocations) {j : Job} (hj : j.Of o) :
    Yields (Job.Of o) (Traced os) (fillCall env f j r) := by
  unfold fillCall
  rw [hj.object]
  split
  · exact covers_traced _ (by simp [EncodeCause.shown])
  · rename_i name routine hsplit
    have hlibrary : Yields Library.Usable (Traced os) (libraryFor env f o name r.target) :=
      libraryFor_yields henv.libraries hf (fun _ _ => traced_link _)
        (fun l hl => supports_traced hl.mask) (ho.checkPin_yields name r.target)
    refine hlibrary.bind fun l hl => ?_
    split
    · exact traced_link _
    · rename_i offset hoffset
      obtain ⟨x, hx, rfl⟩ := Option.map_eq_some_iff.mp hoffset
      have hvalue := hl.exports x (List.mem_of_find?_eq_some hx)
      exact (ho.resolveCall_yields hr hj hl.canonical hvalue).bind fun _ hx => hx

/-- Bits of no extension stop an object before anything else is looked at. -/
theorem linkFrom_of_not_known (henv : env.mask.Known) (ho : ¬ o.mask.Known) :
    linkFrom env s f o = .error (.extension (.unknownBits (o.mask.diff env.mask))) := by
  have hsupports : supports env o.mask o.name =
      .error (.extension (.unknownBits (o.mask.diff env.mask))) := by
    rw [supports, Mask.names_of_not_known fun hdiff => ho (henv.of_diff hdiff)]
  rw [linkFrom, hsupports]
  rfl

/-- **One object**, given the libraries of the objects that it calls. -/
theorem Object.Drawn.linkFrom_yields (henv : env.Drawn os) (hs : s ∈ ContentId.Strategy.known)
    (hf : ∀ name, Yields Library.Usable (Traced os) (f name)) (ho : o.Drawn os) :
    Yields Library.Usable (Traced os) (linkFrom env s f o) := by
  by_cases hmask : o.mask.Known
  · refine linkFrom_rounds (fun j hj => hj.object) (Job.start_of o) ?_ ?_ ?_ ?_ ?_
    · exact supports_traced hmask o.name
    · exact fun r hr _ j hj =>
        ho.resolve_yields hr (Object.labelValue_covered covers_traced ho.bounded.shows _) hj
    · exact fun r hr _ j hj => ho.fillCall_yields henv hf hr hj
    · exact fun r hr _ j hj =>
        ho.resolve_yields hr (Object.datumValue_covered covers_traced ho.bounded.shows _) hj
    · intro j hj
      refine (hj.library_yields hmask ho.bounded.code ho.bounded.data hs).imp (fun l hl => ?_)
        fun _ he => he
      obtain ⟨hknown, hid, hexports⟩ := hl
      refine ⟨hknown, hid, fun x hx => ho.bounded.shows.value x (List.mem_append_left _ ?_)⟩
      rwa [← hexports]
  · rw [linkFrom_of_not_known henv.mask hmask]
    exact Or.inr (ho.stray_bits hmask _)

/-- **Linking an object** gives a library, a report, or a stray failure. -/
theorem Object.Drawn.linkObject_yields (ho : o.Drawn os) (henv : env.Drawn os)
    (hs : s ∈ ContentId.Strategy.known) :
    Yields Library.Usable (Traced os) (linkObject o env s) := by
  rw [linkObject_eq]
  refine linkFrom_yields henv hs (fun name => ?_) ho
  exact linkUnder_yields henv.objects (fun _ _ => traced_link _) (fun _ => traced_link _)
    (fun _ hf _ => linkFrom_yields henv hs hf) _ [] name

end Link

/-! ### Merging -/

namespace Merge

section Merge
variable {os objects : List Object}

/-- The ids that libraries are fixed to so far. -/
def PinsFixedBy (os : List Object) (libraries : Dict (Option String)) : Prop :=
  ∀ x ∈ libraries, ∀ id ∈ x.2, FixedBy os id

theorem addLibrary_yields {libraries : Dict (Option String)} (h : PinsFixedBy os libraries)
    {ref : LibraryRef} (href : ∀ id ∈ ref.id, FixedBy os id) :
    Yields (PinsFixedBy os) (Traced os) (addLibrary libraries ref) := by
  refine Yields.of_ok (P := fun _ => True) ?_ fun _ => addLibrary_ids h href
  unfold addLibrary
  split
  · rename_i first second hget hid
    have hfirst := h _ (Dict.mem_of_get? (Option.join_eq_some_iff.mp hget)) first rfl
    refine hfirst.normalize_yields.bind fun _ _ => ?_
    refine (href second hid).normalize_yields.bind fun _ _ => ?_
    split_ifs
    · exact traced_link _
    · trivial
  · trivial
  · trivial

theorem addExports_libraries {object : String} {c d : Nat} {st st' : State}
    {xs : List ObjectSymbol} (h : xs.foldlM (addExport object c d) st = .ok st') :
    st'.libraries = st.libraries := by
  refine foldlM_induction (fun _ t => t.libraries = st.libraries) rfl ?_ h
  intro done x rest t t' _ ht hstep
  unfold addExport at hstep
  split at hstep
  · cases hstep
  · cases hstep
    exact ht

/-- Adding an object fails with a report, or because of an id. -/
theorem addObject_yields {st : State} (h : PinsFixedBy os st.libraries) {o : Object}
    (ho : o ∈ os) :
    Yields (fun st' => PinsFixedBy os st'.libraries) (Traced os) (addObject st o) := by
  have hlink : ∀ {x : Except LinkError State} {P : State → Prop}, (∀ st', x = .ok st' → P st') →
      Yields P (Traced os) (x.mapError .link) := by
    rintro (e | st') P hP
    · exact traced_link e
    · exact hP st' rfl
  refine (hlink fun st' => addExports_libraries).bind fun st1 h1 => ?_
  refine (hlink (P := fun st' => st'.libraries = st.libraries) fun st' hst' => ?_).bind
    fun st2 h2 => ?_
  · obtain ⟨entry, rfl, -⟩ := addEntry_eq_ok hst'
    exact h1
  have hlibraries : Yields (PinsFixedBy os) (Traced os)
      (o.libraries.foldlM addLibrary st2.libraries) :=
    Yields.foldlM (h2 ▸ h) fun ref href d hd =>
      addLibrary_yields hd fun id hid => ⟨o, ho, ref, href, hid⟩
  exact hlibraries.bind fun d hd => hd

/-- The integers of merged objects are small as long as the objects fit the segments. -/
theorem State.Of.shows {st : State} (h : st.Of objects)
    (hobjects : ∀ o ∈ objects, o.Bounded (2 ^ 32))
    (hcode : st.code.length ≤ maxSegment) (hdata : st.data.length ≤ maxSegment) (name : String) :
    (st.object name).Shows fun v => v.natAbs < 2 ^ 33 := by
  rw [h.code] at hcode
  rw [h.data] at hdata
  -- What was read is below `2 ^ 32`, and so is what a part is moved by.
  have hbase : ∀ q ∈ parts objects, q.codeBase < 2 ^ 32 ∧ q.dataBase < 2 ^ 32 := by
    intro q hq
    have hle := length_le_of_mem_parts hq
    simp only [maxSegment] at hcode hdata
    omega
  have hrebase : ∀ q ∈ parts objects, ∀ y ∈ q.object.exports ++ q.object.symbols,
      (rebase q.codeBase q.dataBase y).value.natAbs < 2 ^ 33 := by
    intro q hq y hy
    have hvalue := (hobjects _ (mem_of_mem_parts hq)).shows.value y hy
    have hq := hbase q hq
    simp only [rebase]
    split_ifs <;> omega
  refine ⟨fun r hr => ?_, fun x hx => ?_⟩
  · rw [State.object, List.mem_mergeSort, h.relocations] at hr
    obtain ⟨q, hq, hr⟩ := List.mem_flatMap.mp hr
    obtain ⟨r', hr', rfl⟩ := List.mem_map.mp hr
    have hoffset := (hobjects _ (mem_of_mem_parts hq)).shows.offset r' hr'
    have hq := hbase q hq
    simp only [move]
    omega
  · rw [State.object, h.exports, h.symbols] at hx
    rcases List.mem_append.mp hx with hx | hx
    · obtain ⟨q, hq, hx⟩ := List.mem_flatMap.mp hx
      obtain ⟨y, hy, rfl⟩ := List.mem_map.mp hx
      exact hrebase q hq y (List.mem_append_left _ hy)
    · obtain ⟨q, hq, hx⟩ := List.mem_flatMap.mp hx
      obtain ⟨y, hy, rfl⟩ := List.mem_map.mp hx
      exact hrebase q hq y (List.mem_append_right _ hy)

theorem checkSizes_yields {st : State} (h : st.Of objects)
    (hobjects : ∀ o ∈ objects, o.Bounded (2 ^ 32)) :
    Yields (fun _ => st.code.length ≤ maxSegment ∧ st.data.length ≤ maxSegment) (Traced os)
      (checkSizes st) := by
  unfold checkSizes
  split_ifs with hsize
  · exact traced_link _
  · simp only [Bool.or_eq_true, decide_eq_true_eq, not_or, Nat.not_lt] at hsize
    split
    · rename_i x hx
      have hvalue := (h.shows hobjects hsize.1 hsize.2 "").value x (List.mem_of_find?_eq_some hx)
      rw [Failure.checked_eq (by simpa [Failure.shown, LinkError.shown] using hvalue)]
      exact traced_link _
    · exact hsize

theorem mergeAll_yields {first : Object} {others : List Object}
    (hobjects : ∀ o ∈ first :: others, o.Bounded (2 ^ 32)) (hsub : first :: others ⊆ os)
    (name : Option String) : Yields (Object.Drawn os) (Traced os) (mergeAll first others name) := by
  have hfold : Yields (State.Of (first :: others)) (Traced os)
      ((first :: others).foldlM addObject {}) := by
    -- Only the ids have to be followed step by step; the rest is read off the result.
    have hpinned : Yields (fun st : State => PinsFixedBy os st.libraries) (Traced os)
        ((first :: others).foldlM addObject {}) :=
      Yields.foldlM (by simp [PinsFixedBy]) fun o ho st hst => addObject_yields hst (hsub ho)
    exact hpinned.of_ok fun st => State.of_foldlM
  refine hfold.bind fun st hst => (checkSizes_yields hst hobjects).bind fun _ hsizes => ?_
  obtain ⟨hcode, hdata⟩ := hsizes
  refine ⟨⟨?_, ?_, hst.shows hobjects hcode hdata _⟩, fun hknown => ?_, fun ref href id hid => ?_⟩
  · exact hcode.trans_lt (by decide)
  · exact hdata.trans_lt (by decide)
  · have hmask := (foldl_union_spec 0 (first :: others) 0 ⟨0, by decide, rfl⟩
      fun o ho => hknown o (hsub ho)).1
    rwa [← hst.mask] at hmask
  · obtain ⟨x, hx, rfl⟩ := List.mem_map.mp href
    obtain ⟨o, ho, hpin⟩ := hst.libraries x hx id hid
    exact ⟨o, hsub ho, hpin⟩

/-- **Merging objects** gives an object, a report, or a stray failure. -/
theorem mergeObjects_yields (hobjects : ∀ o ∈ objects, o.Bounded (2 ^ 32)) (hsub : objects ⊆ os)
    (name : Option String) : Yields (Object.Drawn os) (Traced os) (mergeObjects objects name) := by
  unfold mergeObjects
  split
  · exact traced_link _
  · rename_i o
    have ho := List.mem_singleton_self o
    exact (hobjects o ho).drawn (hsub ho)
  · exact mergeAll_yields hobjects hsub _

end Merge

end Merge

/-- Objects are merged, and what they are merged to is linked. -/
theorem linkMerged_acts (objects : List Object) (env : Environment) (s : ContentId.Strategy)
    (name : Option String) : Acts (Ready env s []) (linkMerged objects name)
      (mergeObjects objects name >>= fun m => linkObject m env s) := by
  refine (acts_lift _).bind fun m _ => ?_
  rw [linkObject_eq]
  split_ifs
  · exact (acts_record ready_eventless _).bind fun _ _ => link_acts m
  · exact link_acts m

theorem linkObjects_fst (objects : List Object) (env : Environment) (s : ContentId.Strategy)
    (name : Option String) : (linkObjects objects env s name).1 =
      mergeObjects objects name >>= fun m => linkObject m env s :=
  (linkMerged_acts objects env s name _ (ready_new env s)).1

/-- What is linked on the way is what the objects of the environment give on their own. -/
theorem linkObject_of_mem_linked {objects : List Object} {env : Environment}
    {s : ContentId.Strategy} {name : Option String} {x : String × Library}
    (h : x ∈ (linkObjects objects env s name).2.linked) :
    ∃ o, env.objects.get? x.1 = some o ∧ linkObject o env s = .ok x.2 := by
  obtain ⟨depth, hdepth⟩ := (linkMerged_acts objects env s name _ (ready_new env s)).2.linked x h
  exact linkObject_of_linkDeep hdepth

/-- **What files are linked to.** Objects that were read from files, against the environment of any
manifest on any tree of files, give a library or a failure. A failure has a report, unless one of
the objects, given or of the environment, has bits of no extension in its mask or fixes a library
to an id that is none. If the merged object has such bits, it always fails with them. -/
theorem linkObjects_reported_or_stray {raws : List Bytes} {objects : List Object} {c : Manifest}
    {console : Console} {tree : FileTree} {env : Environment} {s : ContentId.Strategy}
    (hobjects : List.Forall₂ (fun raw o => Object.ofBytes raw = .ok o) raws objects)
    (henv : Tool.resultOn c.environment console tree = .ok env)
    (hs : s ∈ ContentId.Strategy.known) (name : Option String) :
    ((∃ lib, (linkObjects objects env s name).1 = .ok lib) ∨
      ∃ e, (linkObjects objects env s name).1 = .error e ∧
        (e.diagnostic?.isSome = true ∨ Stray (objects ++ env.objects.map (·.2)) e)) ∧
    ∀ m, mergeObjects objects name = .ok m → ¬ m.mask.Known →
      (linkObjects objects env s name).1 =
        .error (.extension (.unknownBits (m.mask.diff env.mask))) := by
  have hloaded : env.Loaded := c.environment_gives console tree env henv
  have hdrawn : env.Drawn (objects ++ env.objects.map (·.2)) :=
    hloaded.drawn fun x hx => List.mem_append_right _ (List.mem_map_of_mem hx)
  have hbounded : ∀ o ∈ objects, o.Bounded (2 ^ 32) := by
    intro o ho
    obtain ⟨raw, -, hraw⟩ := exists_mem_left hobjects o ho
    exact Object.bounded_of_ofBytes hraw
  rw [linkObjects_fst]
  constructor
  · have hyields := (Merge.mergeObjects_yields hbounded (List.subset_append_left _ _) name).bind
      fun m hm => hm.linkObject_yields hdrawn hs
    rcases hlink : mergeObjects objects name >>= fun m => linkObject m env s with e | lib
    · rw [hlink] at hyields
      exact Or.inr ⟨e, rfl, hyields⟩
    · exact Or.inl ⟨lib, rfl⟩
  · intro m hm hmask
    rw [hm]
    show linkObject m env s = _
    rw [linkObject_eq, linkFrom_of_not_known hloaded.mask hmask]

/-- The file of an object. -/
def Object.file (o : Object) : Bytes := o.toBytes.toOption.getD []

theorem Object.file_of_toBytes {o : Object} {raw : Bytes} (h : o.toBytes = .ok raw) :
    o.file = raw := by
  rw [Object.file, h]
  rfl

/-- The file of a library. -/
def Library.file (l : Library) : Bytes := l.toBytes.toOption.getD []

theorem Library.file_of_toBytes {l : Library} {raw : Bytes} (h : l.toBytes = .ok raw) :
    l.file = raw := by
  rw [Library.file, h]
  rfl

/-- An object that fixes the library of its call to an id. -/
def Object.fixing (id : String) : Object where
  name := "m"
  mask := 1
  code := [5, 0, 0, 0, 0, 0, 0, 0]
  data := []
  exports := [⟨"h", .exportedLabel, 0⟩]
  imports := [⟨"x.f", .exportedLabel⟩]
  libraries := [⟨"x", some id⟩]
  relocations := [⟨1, .externalCall, "x.f"⟩]

/-- An object with the bit of no extension in its mask. -/
def Object.strange : Object where
  name := "s"
  mask := 17
  code := [255, 0, 0, 0, 0, 0, 0, 0]
  data := []
  exports := [⟨"g", .exportedLabel, 0⟩]

/-- The object that is called. -/
def Object.called : Object where
  name := "f"
  mask := 1
  code := [255, 0, 0, 0, 0, 0, 0, 0]
  data := []
  exports := [⟨"f", .exportedLabel, 0⟩]

/-- A manifest with one object. -/
def Manifest.oneObject : Manifest where
  objects := [("x", "f.ao")]

/-- The tree with the file of that object. -/
def FileTree.oneObject : FileTree :=
  (FileTree.empty ["work"]).plant "f.ao" (.file Object.called.file)

/-- The environment of both. -/
def Environment.oneObject : Environment where
  objects := [("x", .called)]

theorem linkObjects_of_fixing_and_strange :
    Tool.resultOn Manifest.oneObject.environment {} FileTree.oneObject = .ok .oneObject ∧
    ((∃ lib, (linkObjects [.fixing "zzz", .strange] .oneObject .sha256 none).1 = .ok lib) ∨
      ∃ e, (linkObjects [.fixing "zzz", .strange] .oneObject .sha256 none).1 = .error e ∧
        (e.diagnostic?.isSome = true ∨ Stray [.fixing "zzz", .strange, .called] e)) ∧
    (linkObjects [.fixing "zzz", .strange] .oneObject .sha256 none).1 =
      .error (.extension (.unknownBits 16)) := by
  have henv : Tool.resultOn Manifest.oneObject.environment {} FileTree.oneObject =
      .ok .oneObject := by decide +kernel
  have hread : List.Forall₂ (fun raw o => Object.ofBytes raw = .ok o)
      [(Object.fixing "zzz").file, Object.strange.file] [.fixing "zzz", .strange] :=
    .cons (by decide +kernel) (.cons (by decide +kernel) .nil)
  obtain ⟨m, hm, hmask⟩ := map_eq_ok.mp (by decide +kernel :
    Object.mask <$> mergeObjects [.fixing "zzz", .strange] none = .ok 17)
  have hunknown : ¬ m.mask.Known := by
    rintro ⟨n, hn, h⟩
    have hbits : 17 = n := Int.ofNat.inj (hmask.symm.trans h)
    omega
  obtain ⟨houtcome, hbits⟩ :=
    linkObjects_reported_or_stray hread henv (s := .sha256) List.mem_cons_self none
  refine ⟨henv, houtcome, ?_⟩
  have hresult := hbits m hm hunknown
  rw [hmask] at hresult
  exact hresult

/-- Objects and a manifest that are read, and failures without a report: the mask of one object has
the bit of no extension, and the id in the other one is none. -/
theorem strange_and_fixing_unreported :
    Manifest.ofJson (.object [("modules", .object [("x", .string "f.ao")])]) = .ok .oneObject ∧
    Tool.resultOn Manifest.oneObject.environment {} FileTree.oneObject = .ok .oneObject ∧
    (∃ raw e, Object.ofBytes raw = .ok .strange ∧
      (linkObjects [.strange] .oneObject).1 = .error e ∧ e.diagnostic? = none) ∧
    ∃ raw e, Object.ofBytes raw = .ok (.fixing "zzz") ∧
      (linkObjects [.fixing "zzz"] .oneObject).1 = .error e ∧ e.diagnostic? = none := by
  refine ⟨by decide +kernel, by decide +kernel, ?_, ?_⟩
  · exact ⟨Object.strange.file, .extension (.unknownBits 16), by decide +kernel,
      by decide +kernel, rfl⟩
  · exact ⟨(Object.fixing "zzz").file, .id (.malformed "zzz"), by decide +kernel,
      by decide +kernel, rfl⟩

end AluVM
