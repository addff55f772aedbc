import AluVM.Proofs.Linking
import Mathlib.Data.List.Pairwise

/-! # What the fields of a linked object hold

Linking fills the fields of an object in three rounds, those of labels, of calls and of data. As
the fields are apart, the order does not matter, and a library is described field by field
(`Linked`): outside the fields its code is that of the object, and every field holds what its
relocation asks for (`Holds`). `linked_of_apart` says this of every link that succeeds.

For a call, that is the library that `resolution?` finds for its local name. -/

namespace AluVM

open Linker (splitTarget? known?)

/-- **The library of a local name**: the one that the environment knows, else what the object of
that name is linked to on its own, else the one whose id the name is. -/
def resolution? (env : Environment) (s : ContentId.Strategy) (o : Object) (name : String) :
    Option Library :=
  match known? env (o.libraryId? name) name with
  | some l => some l
  | none =>
    match env.objects.get? name with
    | some d => (linkObject d env s).toOption
    | none => env.library? name

/-- **What the field of a relocation holds** in the library of an object. -/
inductive Holds (env : Environment) (s : ContentId.Strategy) (o : Object) (lib : Library)
    (r : Relocation) : Bytes → Prop where
  | label {symbol : ObjectSymbol} (kind : r.kind = .localOffset)
      (found : o.lookup? r.target [.localLabel, .exportedLabel] = some symbol)
      (low : 0 ≤ symbol.value) (high : symbol.value ≤ maxOffset) :
      Holds env s o lib r (Bytes.ofNat 2 symbol.value.toNat)
  | datum {symbol : ObjectSymbol} (kind : r.kind = .dataAddress)
      (found : o.lookup? r.target [.dataSymbol] = some symbol)
      (low : 0 ≤ symbol.value) (high : symbol.value ≤ maxOffset) :
      Holds env s o lib r (Bytes.ofNat 2 symbol.value.toNat)
  | call {name routine id : String} {l : Library} {offset : Int} {index : Nat}
      (kind : r.kind = .externalCall) (divided : splitTarget? r.target = some (name, routine))
      (resolved : resolution? env s o name = some l)
      (exported : exportOffset? l.exports routine = some offset)
      (low : 0 ≤ offset) (high : offset ≤ maxOffset)
      (listed : lib.libraries[index]? = some id) (normal : ContentId.normalize l.id = .ok id)
      (small : index < Job.maxLibraries) :
      Holds env s o lib r (UInt8.ofNat index :: Bytes.ofNat 2 offset.toNat)

/-- **The library that an object is linked to.** -/
structure Linked (env : Environment) (s : ContentId.Strategy) (o : Object) (lib : Library) :
    Prop where
  length_code : lib.code.length = o.code.length
  data : lib.data = o.data
  exports : lib.exports = o.exports
  entry : lib.entry = o.entry
  outside : ∀ i, (∀ r ∈ o.relocations, ¬ r.Covers i) → lib.code[i]? = o.code[i]?
  inside : ∀ r ∈ o.relocations, 1 ≤ r.offset ∧ r.offset + r.kind.width ≤ o.code.length
  fields : ∀ r ∈ o.relocations,
    Holds env s o lib r (slice lib.code r.offset.toNat r.kind.width)

/-! ### Fields and their relocations -/

/-- Two relocations whose fields have no common place. -/
def Relocation.Apart (r s : Relocation) : Prop := ∀ i, r.Covers i → ¬ s.Covers i

theorem Relocation.Before.apart {r s : Relocation} (h : r.Before s) : r.Apart s := by
  intro i hr hs
  simp only [Relocation.Before, Relocation.Covers] at h hr hs
  omega

instance : Std.Symm Relocation.Apart := ⟨fun _ _ h i hs hr => h i hr hs⟩

namespace Job

/-- The filling writes the field of the relocation, with bytes that have a given property. -/
structure Filling.Of (H : Relocation → Bytes → Prop) (size : Nat) (r : Relocation) (f : Filling) :
    Prop where
  place : (f.place : Int) = r.offset
  first : 1 ≤ r.offset
  width : f.bytes.length = r.kind.width
  inside : r.offset + r.kind.width ≤ size
  holds : H r f.bytes

theorem Filling.Of.has_iff {H : Relocation → Bytes → Prop} {size : Nat} {r : Relocation}
    {f : Filling} (h : f.Of H size r) {i : Nat} : f.Has i ↔ r.Covers i := by
  have hplace := h.place
  have hwidth := h.width
  simp only [Filling.Has, Relocation.Covers]
  omega

/-- The second job is the first one with the fields of relocations filled. -/
def Filled (H : Relocation → Bytes → Prop) (rs : List Relocation) (j j' : Job) : Prop :=
  ∃ fs : List Filling, List.Forall₂ (fun r f => f.Of H j.code.size r) rs fs ∧
    j'.code = fill j.code fs

theorem Filled.nil {H : Relocation → Bytes → Prop} (j : Job) : Filled H [] j j := ⟨[], .nil, rfl⟩

theorem Filled.imp {H H' : Relocation → Bytes → Prop} {rs : List Relocation} {j j' : Job}
    (h : Filled H rs j j') (hHH : ∀ r bytes, H r bytes → H' r bytes) : Filled H' rs j j' := by
  obtain ⟨fs, hfs, hcode⟩ := h
  exact ⟨fs, hfs.imp fun r f hf => { hf with holds := hHH r f.bytes hf.holds }, hcode⟩

theorem Filled.trans {H : Relocation → Bytes → Prop} {rs rs' : List Relocation} {j j' j'' : Job}
    (h : Filled H rs j j') (h' : Filled H rs' j' j'') : Filled H (rs ++ rs') j j'' := by
  obtain ⟨fs, hfs, hcode⟩ := h
  obtain ⟨fs', hfs', hcode'⟩ := h'
  rw [hcode, size_fill] at hfs'
  exact ⟨fs ++ fs', List.rel_append hfs hfs', by rw [hcode', hcode, fill_append]⟩

theorem Fills.filled {H : Relocation → Bytes → Prop} {r : Relocation} {field : Bytes} {j j' : Job}
    (h : Fills r field j j') (hwidth : field.length = r.kind.width) (hH : H r field) :
    Filled H [r] j j' := by
  have hinside := h.inside
  have hplace := h.place
  rw [hwidth] at hinside
  refine ⟨[⟨r.offset.toNat, field⟩], .cons ⟨?_, hplace, hwidth, hinside, hH⟩ .nil, h.code⟩
  exact Int.toNat_of_nonneg (by omega)

/-- **Fields that are apart hold what was written**, and nothing else changed. -/
theorem Filled.spec {H : Relocation → Bytes → Prop} {rs : List Relocation} {j j' : Job}
    (h : Filled H rs j j') (hapart : rs.Pairwise Relocation.Apart) :
    j'.code.size = j.code.size ∧
      (∀ i, (∀ r ∈ rs, ¬ r.Covers i) → j'.code[i]? = j.code[i]?) ∧
      ∀ r ∈ rs, 1 ≤ r.offset ∧ r.offset + r.kind.width ≤ j.code.size ∧
        H r (slice j'.code.toList r.offset.toNat r.kind.width) := by
  obtain ⟨fs, hfs, hcode⟩ := h
  have hfsapart : fs.Pairwise Filling.Apart := by
    clear hcode
    induction hfs with
    | nil => exact .nil
    | @cons r f rs fs hf hfs ih =>
      obtain ⟨hr, hrs⟩ := List.pairwise_cons.mp hapart
      refine List.pairwise_cons.mpr ⟨fun f' hf' i hi hi' => ?_, ih hrs⟩
      obtain ⟨r', hr', hof⟩ := Steps.exists_mem_left hfs f' hf'
      exact hr r' hr' i (hf.has_iff.mp hi) (hof.has_iff.mp hi')
  refine ⟨by rw [hcode, size_fill], fun i hi => ?_, fun r hr => ?_⟩
  · rw [hcode]
    refine getElem?_fill_of_outside fun f hf hhas => ?_
    obtain ⟨r, hr, hof⟩ := Steps.exists_mem_left hfs f hf
    exact hi r hr (hof.has_iff.mp hhas)
  · obtain ⟨f, hf, hof⟩ := Steps.exists_mem_right hfs r hr
    have hplace := hof.place
    have hinside := hof.inside
    have hslice : slice (fill j.code fs).toList f.place f.bytes.length = f.bytes := by
      refine slice_fill hfsapart hf ?_
      rw [hof.width]
      omega
    rw [hof.width, show f.place = r.offset.toNat by omega, ← hcode] at hslice
    refine ⟨hof.first, hinside, ?_⟩
    rw [hslice]
    exact hof.holds

end Job

/-! ### The three rounds -/

section Rounds
variable {env : Environment} {s : ContentId.Strategy}

/-- The library for a call is the one that its local name stands for. -/
theorem resolution?_of_libraryFor {o : Object} {name target : String} {l : Library}
    (h : Linker.libraryFor env (Linker.linkUnder env s env.objects.length []) o name target =
      .ok l) : resolution? env s o name = some l := by
  obtain ⟨found, hfound, h⟩ := Steps.bind_eq_ok.mp h
  rcases found with _ | l'
  · cases h
  · obtain ⟨_, -, h⟩ := Steps.bind_eq_ok.mp h
    obtain ⟨_, -, h⟩ := Steps.bind_eq_ok.mp h
    cases h
    unfold Linker.libraryAt at hfound
    unfold resolution?
    rcases hknown : known? env (o.libraryId? name) name with _ | known
    · simp only [hknown] at hfound ⊢
      split_ifs at hfound with hhas
      · obtain ⟨l', hl', hsome⟩ := Steps.map_eq_ok.mp hfound
        cases hsome
        obtain ⟨d, hd, hlink⟩ := linkObject_of_linkUnder hl'
        simp [hd, hlink, Except.toOption]
      · rcases hget : env.objects.get? name with _ | d
        · simpa using hfound
        · exact absurd (Dict.has_of_get? hget) hhas
    · simpa [hknown] using hfound

/-- One round over the fields of a kind fills them with the values of their targets. -/
theorem resolveAll_filled {H : Relocation → Bytes → Prop} {kind : RelocationKind}
    {value : Object → String → Except Failure Int} {j j' : Job} (hwidth : kind.width = 2)
    (hholds : ∀ r v, r.kind = kind → value j.object r.target = .ok v → 0 ≤ v → v ≤ maxOffset →
      H r (Bytes.ofNat 2 v.toNat)) (h : j.resolveAll kind value = .ok j') :
    Job.Filled H (j.object.relocationsOf kind) j j' ∧
      j'.object = j.object ∧ j'.libraries = j.libraries ∧ j'.calls = j.calls := by
  refine Steps.foldlM_induction (fun done k => Job.Filled H done j k ∧
    k.object = j.object ∧ k.libraries = j.libraries ∧ k.calls = j.calls)
    ⟨.nil j, rfl, rfl, rfl⟩ ?_ h
  rintro done r rest k k' hsplit ⟨hfilled, hobject, hlibraries, hcalls⟩ hstep
  obtain ⟨v, hv, hlow, hhigh, hfills, hlibraries', hcalls'⟩ := Job.resolve_eq_ok hstep
  have hkind : r.kind = kind :=
    (Linker.mem_relocationsOf.mp (by rw [hsplit]; simp : r ∈ j.object.relocationsOf _)).2
  rw [hobject] at hv
  refine ⟨hfilled.trans (hfills.filled ?_ (hholds r v hkind hv hlow hhigh)),
    hfills.object.trans hobject, hlibraries'.trans hlibraries, hcalls'.trans hcalls⟩
  rw [hkind, hwidth]
  exact Bytes.length_ofNat 2 _

theorem resolveLabels_filled (lib : Library) {j j' : Job} (h : j.resolveLabels = .ok j') :
    Job.Filled (Holds env s j.object lib) (j.object.relocationsOf .localOffset) j j' ∧
      j'.object = j.object ∧ j'.libraries = j.libraries ∧ j'.calls = j.calls := by
  refine resolveAll_filled rfl (fun r v hkind hv hlow hhigh => ?_) h
  obtain ⟨x, hx, rfl⟩ := Object.symbolValue_eq_ok.mp hv
  exact .label hkind hx hlow hhigh

theorem resolveData_filled (lib : Library) {j j' : Job} (h : j.resolveData = .ok j') :
    Job.Filled (Holds env s j.object lib) (j.object.relocationsOf .dataAddress) j j' ∧
      j'.object = j.object ∧ j'.libraries = j.libraries ∧ j'.calls = j.calls := by
  refine resolveAll_filled rfl (fun r v hkind hv hlow hhigh => ?_) h
  obtain ⟨x, hx, rfl, -⟩ := Object.datumValue_eq_ok.mp hv
  exact .datum hkind hx hlow hhigh

/-- What the field of a call holds, given the list of the libraries so far. -/
def CallHeld (env : Environment) (s : ContentId.Strategy) (o : Object) (ids : List String)
    (r : Relocation) (field : Bytes) : Prop :=
  r.kind = .externalCall ∧ ∃ name routine l offset index,
    splitTarget? r.target = some (name, routine) ∧ resolution? env s o name = some l ∧
    exportOffset? l.exports routine = some offset ∧ 0 ≤ offset ∧ offset ≤ maxOffset ∧
    ids[index]? = some l.id ∧ field = UInt8.ofNat index :: Bytes.ofNat 2 offset.toNat

theorem CallHeld.mono {o : Object} {ids ids' : List String} (hids : ids <+: ids') {r : Relocation}
    {field : Bytes} (h : CallHeld env s o ids r field) : CallHeld env s o ids' r field := by
  obtain ⟨hkind, name, routine, l, offset, index, hsplit, hl, hoffset, hlow, hhigh, hid, hfield⟩ :=
    h
  obtain ⟨more, rfl⟩ := hids
  refine ⟨hkind, name, routine, l, offset, index, hsplit, hl, hoffset, hlow, hhigh, ?_, hfield⟩
  rw [List.getElem?_append_left (List.getElem?_eq_some_iff.mp hid).1]
  exact hid

theorem fillCalls_filled {j j' : Job} (hempty : j.libraries = [])
    (h : Linker.fillCalls env (Linker.linkUnder env s env.objects.length []) j = .ok j') :
    Job.Filled (CallHeld env s j.object j'.libraries) (j.object.relocationsOf .externalCall) j j' ∧
      j'.object = j.object ∧ j'.libraries.length ≤ Job.maxLibraries := by
  refine Steps.foldlM_induction (fun done k =>
    Job.Filled (CallHeld env s j.object k.libraries) done j k ∧ k.object = j.object ∧
      k.libraries.length ≤ Job.maxLibraries) ⟨.nil j, rfl, by simp [hempty]⟩ ?_ h
  rintro done r rest k k' hsplit ⟨hfilled, hobject, hlen⟩ hstep
  obtain ⟨name, routine, l, offset, index, htarget, hl, hoffset, hcall⟩ :=
    Linker.fillCall_eq_ok hstep
  obtain ⟨hlow, hhigh, hid, hgrow, hlen', hfills, -⟩ := Job.resolveCall_eq_ok hcall
  have hkind : r.kind = .externalCall :=
    (Linker.mem_relocationsOf.mp (by rw [hsplit]; simp : r ∈ j.object.relocationsOf _)).2
  rw [hobject] at hl
  have hheld : CallHeld env s j.object k'.libraries r
      (UInt8.ofNat index :: Bytes.ofNat 2 offset.toNat) :=
    ⟨hkind, name, routine, l, offset, index, htarget, resolution?_of_libraryFor hl, hoffset, hlow,
      hhigh, hid, rfl⟩
  refine ⟨(hfilled.imp fun r bytes hb => hb.mono hgrow).trans (hfills.filled ?_ hheld),
    hfills.object.trans hobject, hlen' hlen⟩
  rw [hkind]
  exact congrArg (· + 1) (Bytes.length_ofNat 2 _)

/-- The relocations of the three rounds are all relocations. -/
theorem relocationsOf_perm (o : Object) : (o.relocationsOf .localOffset ++
    o.relocationsOf .externalCall ++ o.relocationsOf .dataAddress).Perm o.relocations := by
  have hkinds : ∀ rs : List Relocation, (rs.filter (·.kind = .localOffset) ++
      rs.filter (·.kind = .externalCall) ++ rs.filter (·.kind = .dataAddress)).Perm rs := by
    intro rs
    induction rs with
    | nil => exact .nil
    | cons r rs ih =>
      rcases hk : r.kind with _ | _ | _ <;> simp only [List.filter_cons, hk, decide_true]
      · exact ih.cons r
      · exact (List.perm_middle.append_right _).trans (ih.cons r)
      · exact List.perm_middle.trans (ih.cons r)
  refine List.Perm.trans ?_ (hkinds o.relocations)
  exact ((List.mergeSort_perm _ _).append (List.mergeSort_perm _ _)).append
    (List.mergeSort_perm _ _)

theorem library_eq_ok {j : Job} {lib : Library} (h : j.library s = .ok lib) :
    j.libraries.mapM ContentId.normalize = .ok lib.libraries ∧ lib.code = j.code.toList ∧
      lib.data = j.object.data ∧ lib.exports = j.object.exports ∧ lib.entry = j.object.entry ∧
      lib.calls = j.calls := by
  obtain ⟨ids, hids, h⟩ := Steps.bind_eq_ok.mp h
  obtain ⟨content, -, h⟩ := Steps.bind_eq_ok.mp h
  obtain ⟨id, -, h⟩ := Steps.bind_eq_ok.mp h
  cases h
  exact ⟨Steps.mapError_ok_iff.mp hids, rfl, rfl, rfl, rfl, rfl⟩

/-- The libraries of a call come to their final list in normal form. -/
theorem CallHeld.holds {o : Object} {ids : List String} {lib : Library}
    (hids : ids.mapM ContentId.normalize = .ok lib.libraries) (hlen : ids.length ≤ Job.maxLibraries)
    {r : Relocation} {field : Bytes} (h : CallHeld env s o ids r field) :
    Holds env s o lib r field := by
  obtain ⟨hkind, name, routine, l, offset, index, hsplit, hl, hoffset, hlow, hhigh, hid, rfl⟩ := h
  obtain ⟨id, hget, hnormal⟩ := Steps.getElem?_of_forall₂ (Steps.mapM_eq_ok.mp hids) hid
  have hlt := (List.getElem?_eq_some_iff.mp hid).1
  exact .call hkind hsplit hl hoffset hlow hhigh hget hnormal (Nat.lt_of_lt_of_le hlt hlen)

/-- **Linking fills the fields** of an object whose fields are apart. -/
theorem linked_of_apart {o : Object} {lib : Library}
    (hapart : o.relocations.Pairwise Relocation.Apart) (h : linkObject o env s = .ok lib) :
    Linked env s o lib := by
  rw [linkObject_eq] at h
  obtain ⟨-, j1, j2, j3, h1, h2, h3, h⟩ := Linker.linkFrom_eq_ok.mp h
  obtain ⟨hlabels, ho1, hlibs1, -⟩ := resolveLabels_filled lib h1
  obtain ⟨hcalls, ho2, hlen⟩ := fillCalls_filled hlibs1 h2
  obtain ⟨hdata, ho3, hlibs3, -⟩ := resolveData_filled lib h3
  obtain ⟨hids, hcode, hlibdata, hexports, hentry, -⟩ := library_eq_ok h
  have ho1 : j1.object = o := ho1
  rw [ho1] at hcalls ho2
  rw [ho2] at hdata ho3
  rw [ho3] at hlibdata hexports hentry
  rw [hlibs3] at hids
  have hall := (hlabels.trans (hcalls.imp fun r field hf => hf.holds hids hlen)).trans hdata
  have hperm := relocationsOf_perm o
  have hpairwise : (o.relocationsOf .localOffset ++ o.relocationsOf .externalCall ++
      o.relocationsOf .dataAddress).Pairwise Relocation.Apart :=
    (hperm.pairwise_iff fun hrs => Std.Symm.symm _ _ hrs).mpr hapart
  obtain ⟨hsize, houtside, hfields⟩ := hall.spec hpairwise
  have hstart : (Job.start o).code = o.code.toArray := rfl
  refine ⟨?_, hlibdata, hexports, hentry, fun i hi => ?_, fun r hr => ?_, fun r hr => ?_⟩
  · rw [hcode, Array.length_toList, hsize, hstart, List.size_toArray]
  · rw [hcode, Array.getElem?_toList, houtside i fun r hr => hi r (hperm.mem_iff.mp hr), hstart,
      List.getElem?_toArray]
  · obtain ⟨hfirst, hinside, -⟩ := hfields r (hperm.mem_iff.mpr hr)
    exact ⟨hfirst, by simpa [hstart] using hinside⟩
  · rw [hcode]
    exact (hfields r (hperm.mem_iff.mpr hr)).2.2

theorem linkObject_linked {o : Object} {lib : Library}
    (hbefore : o.relocations.Pairwise Relocation.Before) (h : linkObject o env s = .ok lib) :
    Linked env s o lib :=
  linked_of_apart (hbefore.imp Relocation.Before.apart) h

end Rounds

end AluVM
