import AluVM.Proofs.LinkedFiles

/-! # The list of libraries, the call table and the code

A library tells of its calls in three places: the list of the libraries that it calls, the call
table, and the fields in its code, where a library is given by its place in the list. The three are
made together, call by call. A library enters the list at its first call (`Job.Listed`, kept by
`Job.Listed.resolveCall`), and its place in the list is what is written into the field. Calls are
done in the order of their fields, so that the list is in the order of first use and the table in
the order of the code: `libraries_calls_and_code_agree`. -/

namespace AluVM

open Linker

/-! ### The list -/

/-- A new last element stays if it is the first of its kind. -/
theorem eraseDups_concat (xs : List String) (x : String) :
    (xs ++ [x]).eraseDups = if x ∈ xs then xs.eraseDups else xs.eraseDups ++ [x] := by
  rw [List.eraseDups_append, List.removeAll, List.filter_singleton]
  by_cases hx : x ∈ xs
  · simp [hx]
  · simp [hx, List.eraseDups_cons]

namespace Job

variable {j j' : Job} {id : String} {index : Nat}

/-- A library enters the list at its first use. -/
theorem libraries_of_libraryIndex (h : j.libraryIndex id = .ok (index, j')) :
    j'.libraries = if id ∈ j.libraries then j.libraries else j.libraries ++ [id] := by
  unfold libraryIndex at h
  split at h
  · rename_i found hfound
    cases h
    have hmem : id ∈ j.libraries := by
      rw [← List.isSome_idxOf?, hfound]
      rfl
    rw [if_pos hmem]
  · rename_i hnone
    split_ifs at h
    cases h
    rw [if_neg (List.idxOf?_eq_none_iff.mp hnone)]

theorem libraries_of_resolveCall {r : Relocation} {routine : Int}
    (h : j.resolveCall r id routine = .ok (index, j')) :
    j'.libraries = if id ∈ j.libraries then j.libraries else j.libraries ++ [id] := by
  obtain ⟨⟨index', j1⟩, hindex, h⟩ := Steps.bind_eq_ok.mp h
  obtain ⟨field, -, h⟩ := Steps.bind_eq_ok.mp h
  obtain ⟨j2, hpatch, h⟩ := Steps.bind_eq_ok.mp h
  obtain ⟨-, -, rfl⟩ := patch_eq_ok.mp hpatch
  cases h
  show j1.libraries = _
  exact libraries_of_libraryIndex (Steps.mapError_ok_iff.mp hindex)

/-- **The list holds the libraries of the calls**, each once and in the order of first use. -/
structure Listed (j : Job) : Prop where
  order : j.libraries = (j.calls.map (·.library)).eraseDups
  nodup : j.libraries.Nodup

theorem Listed.resolveCall (hj : j.Listed) {r : Relocation} {routine : Int}
    (h : j.resolveCall r id routine = .ok (index, j')) : j'.Listed := by
  have hlibraries := libraries_of_resolveCall h
  obtain ⟨-, -, -, -, -, -, hcalls, -⟩ := resolveCall_eq_ok h
  have hmem : id ∈ j.libraries ↔ id ∈ j.calls.map (·.library) := by
    rw [hj.order, List.mem_eraseDups]
  have horder : (j'.calls.map (·.library)).eraseDups = j'.libraries := by
    rw [hcalls, List.map_append, hlibraries]
    refine (eraseDups_concat _ id).trans ?_
    rw [← hj.order]
    exact if_congr hmem.symm rfl rfl
  refine ⟨horder.symm, ?_⟩
  rw [hlibraries]
  split_ifs with hid
  · exact hj.nodup
  · rw [← List.concat_eq_append]
    exact hj.nodup.concat hid

end Job

section Link
variable {env : Environment} {s : ContentId.Strategy} {o : Object} {lib : Library}

theorem fillCalls_listed {f : String → Except Failure Library} {j j' : Job} (hj : j.Listed)
    (h : fillCalls env f j = .ok j') : j'.Listed := by
  refine Steps.foldlM_induction (fun _ k => k.Listed) hj ?_ h
  intro done r rest k k' _ hk hstep
  obtain ⟨name, routine, l, offset, index, -, -, -, hcall⟩ := fillCall_eq_ok hstep
  exact hk.resolveCall hcall

/-- The list of a linked object, which is in normal form from the start. -/
theorem libraries_of_linkObject (henv : env.Made) (hs : s ∈ ContentId.Strategy.known)
    (h : linkObject o env s = .ok lib) : lib.libraries.Nodup ∧
      lib.libraries.length ≤ Job.maxLibraries ∧
      lib.libraries = (lib.calls.map (·.library)).eraseDups := by
  obtain ⟨-, j1, j2, j3, rfl, hempty, hnone, hround, hobject, hlibraries, hcalls, hlibrary⟩ :=
    exists_fillCalls h
  have hlisted : j2.Listed :=
    fillCalls_listed ⟨by simp [hempty, hnone], by simp [hempty]⟩ hround
  have hlength := (fillCalls_filled hempty hround).2.2
  have hlists := (fillCalls_lists hnone hempty hround).congr hobject hlibraries hcalls
  rw [libraries_of_lists henv.filed hs hlists hlibrary, (library_eq_ok hlibrary).2.2.2.2.2,
    hlibraries, hcalls]
  exact ⟨hlisted.nodup, hlength, hlisted.order⟩

/-! ### The table -/

/-- Fields of one kind that are apart and in the code are in ascending order. -/
theorem relocationsOf_ascending (hapart : o.relocations.Pairwise Relocation.Apart)
    (hplace : ∀ r ∈ o.relocations, 1 ≤ r.offset) (kind : RelocationKind) :
    (o.relocationsOf kind).Pairwise fun r t => r.offset < t.offset := by
  have hsorted : (o.relocationsOf kind).Pairwise fun r t => decide (r.offset ≤ t.offset) = true :=
    List.pairwise_mergeSort (fun a b c hab hbc => by simp at *; omega)
      (fun a b => by simp; omega) _
  have hkind : (o.relocationsOf kind).Pairwise Relocation.Apart :=
    ((List.mergeSort_perm _ _).pairwise_iff fun hrt => Std.Symm.symm _ _ hrt).mpr
      (hapart.filter _)
  refine List.Pairwise.imp_of_mem ?_ (hsorted.and hkind)
  rintro r t hr ht ⟨hle, hrt⟩
  have hle : r.offset ≤ t.offset := of_decide_eq_true hle
  have hfirst := hplace t (mem_relocationsOf.mp ht).1
  have hrwidth := r.kind.width_pos
  have htwidth := t.kind.width_pos
  -- two fields of one offset would share its place
  by_contra hnot
  refine hrt t.offset.toNat ?_ ?_ <;> unfold Relocation.Covers <;> omega

/-! ### The code -/

/-- The field of an entry of the table gives its library by the place in the list, and its
routine. -/
theorem field_of_entry (henv : env.Made) (hs : s ∈ ContentId.Strategy.known)
    (hlinked : Linked env s o lib) {r : Relocation} (hr : r ∈ o.relocations)
    (hkind : r.kind = .externalCall) {c : CallSite} (hentry : TableEntry env s o r c) :
    ∃ index low high : UInt8, slice lib.code c.offset.toNat 3 = [index, low, high] ∧
      lib.libraries[index.toNat]? = some c.library ∧
      (Bytes.toNat [low, high] : Int) = c.routine := by
  obtain ⟨hoffset, name, routine, l, hsplit, hresolves⟩ := hentry
  have hholds := hlinked.fields r hr
  rw [hkind, ← hoffset] at hholds
  generalize hfield : slice lib.code c.offset.toNat RelocationKind.externalCall.width = field
    at hholds
  cases hholds with
  | label kind => cases kind.symm.trans hkind
  | datum kind => cases kind.symm.trans hkind
  | @call name' routine' id l' offset index kind divided resolved exported low high listed normal
      small =>
    cases hsplit.symm.trans divided
    cases hresolves.found.resolution?.symm.trans resolved
    -- both entry and field speak of the same library and of the same routine of it
    obtain ⟨x, hx, hroutine⟩ := hresolves.routine
    have hoffset : c.routine = offset := by
      rw [exportOffset?, hx] at exported
      rw [hroutine]
      exact Option.some.inj exported
    have hid : id = c.library := by
      rw [(hresolves.found.canonical henv.filed hs).normalize_eq] at normal
      rw [hresolves.library]
      exact (Except.ok.inj normal).symm
    refine ⟨_, _, _, hfield, ?_, ?_⟩
    · rw [UInt8.toNat_ofNat_of_lt' small, listed, hid]
    · have hlt : offset.toNat < 2 ^ (8 * 2) := by
        simp only [maxOffset, maxSegment] at high
        omega
      have hbytes := Bytes.toNat_ofNat hlt
      rw [hoffset]
      simp only [Bytes.ofNat] at hbytes
      omega

end Link

/-- **The list of libraries, the call table and the code agree.** Whatever an object whose fields
are apart is linked against:

* the list holds no library twice, no more than a byte can count, and the libraries of the calls in
  the order of their first use;
* the table has an entry for each call of the object, in the order of their fields, and for nothing
  else;
* the field of every entry holds the place of its library in the list and the offset of its
  routine. -/
theorem libraries_calls_and_code_agree {env : Environment} {s : ContentId.Strategy} {o : Object}
    {lib : Library} (henv : env.Made) (hs : s ∈ ContentId.Strategy.known)
    (hapart : o.relocations.Pairwise Relocation.Apart) (h : linkObject o env s = .ok lib) :
    lib.libraries.Nodup ∧ lib.libraries.length ≤ 256 ∧
    lib.libraries = (lib.calls.map (·.library)).eraseDups ∧
    (∀ id ∈ lib.libraries, ∃ c ∈ lib.calls, c.library = id) ∧
    (∃ calls : List Relocation, calls.Perm (o.relocations.filter (·.kind = .externalCall)) ∧
      (calls.Pairwise fun r t => r.offset < t.offset) ∧
      List.Forall₂ (TableEntry env s o) calls lib.calls) ∧
    ∀ c ∈ lib.calls, 1 ≤ c.offset ∧ ∃ index low high : UInt8,
      slice lib.code c.offset.toNat 3 = [index, low, high] ∧
      lib.libraries[index.toNat]? = some c.library ∧
      (Bytes.toNat [low, high] : Int) = c.routine := by
  have hlinked := linked_of_apart hapart h
  obtain ⟨hnodup, hlength, horder⟩ := libraries_of_linkObject henv hs h
  obtain ⟨-, j, hlists, hlibrary⟩ := exists_lists h
  have hentries := hlists.entries
  rw [← (library_eq_ok hlibrary).2.2.2.2.2] at hentries
  refine ⟨hnodup, hlength, horder, fun id hid => ?_, ⟨_, List.mergeSort_perm _ _, ?_, hentries⟩,
    fun c hc => ?_⟩
  · rw [horder, List.mem_eraseDups] at hid
    simpa using hid
  · exact relocationsOf_ascending hapart (fun r hr => (hlinked.inside r hr).1) _
  · obtain ⟨r, hr, hentry⟩ := Steps.exists_mem_left hentries c hc
    obtain ⟨hmem, hkind⟩ := mem_relocationsOf.mp hr
    refine ⟨?_, field_of_entry henv hs hlinked hmem hkind hentry⟩
    rw [hentry.1]
    exact (hlinked.inside r hmem).1

/-- The linking of an object that has nothing but calls, in the order of their fields. -/
theorem linkObject_of_calls {env : Environment} {s : ContentId.Strategy} {o : Object}
    {lib : Library} (hkind : ∀ r ∈ o.relocations, r.kind = .externalCall)
    (hsorted : o.relocations.Pairwise fun r t => r.offset ≤ t.offset)
    (hmask : o.mask.diff env.mask = 0)
    (h : (o.relocations.foldlM (fillCall env (linkUnder env s env.objects.length []))
      (Job.start o) >>= fun j => j.library s) = .ok lib) : linkObject o env s = .ok lib := by
  have hcalls : o.relocationsOf .externalCall = o.relocations := by
    rw [Object.relocationsOf, List.filter_eq_self.mpr fun r hr => decide_eq_true (hkind r hr)]
    exact List.mergeSort_of_pairwise (hsorted.imp fun hle => decide_eq_true hle)
  have hnone : ∀ kind ≠ .externalCall, o.relocationsOf kind = [] := by
    intro kind hne
    refine List.eq_nil_iff_forall_not_mem.mpr fun r hr => ?_
    obtain ⟨hmem, rfl⟩ := mem_relocationsOf.mp hr
    exact hne (hkind r hmem)
  obtain ⟨j, hj, hlibrary⟩ := Steps.bind_eq_ok.mp h
  rw [← hcalls] at hj
  have hround : ∀ kind ≠ .externalCall, ∀ value (k : Job), k.object = o →
      k.resolveAll kind value = .ok k := by
    intro kind hne value k hobject
    rw [Job.resolveAll, hobject, hnone kind hne]
    rfl
  have hlabels : (Job.start o).resolveLabels = .ok (Job.start o) :=
    hround .localOffset (by decide) _ _ rfl
  have hdata : j.resolveData = .ok j :=
    hround .dataAddress (by decide) _ _ (fillCalls_lists rfl rfl hj).object
  rw [linkObject_eq]
  exact linkFrom_eq_ok.mpr ⟨supports_eq_ok.mpr hmask, _, j, j, hlabels, hj, hdata, hlibrary⟩

/-- An object with three calls by three local names. -/
def Object.sharing : Object where
  name := "main"
  mask := 1
  code := List.replicate 12 0
  data := []
  relocations := [⟨1, .externalCall, "other.go"⟩, ⟨5, .externalCall, "lib.run"⟩,
    ⟨9, .externalCall, "same.run.fast"⟩]

/-- A library with one routine. -/
def Library.other : Library where
  id := "blake2b256:" ++ String.ofList (List.replicate 64 'b')
  mask := 1
  code := []
  data := []
  exports := [⟨"go", .exportedLabel, 515⟩]

/-- An environment with two libraries, one of which has two names. -/
def Environment.shared : Environment :=
  ((({} : Environment).addLibrary .pinned (some "lib")).addLibrary .other (some "other")).addLibrary
    .pinned (some "same")

theorem libraries_calls_and_code_of_sharing : ∃ lib,
    linkObject .sharing .shared .sha256 = .ok lib ∧ lib.calls.length = 3 ∧
    lib.libraries = [Library.other.id, Library.pinned.id] ∧ lib.libraries.Nodup ∧
    lib.libraries = (lib.calls.map (·.library)).eraseDups ∧
    ∀ c ∈ lib.calls, 1 ≤ c.offset ∧ ∃ index low high : UInt8,
      slice lib.code c.offset.toNat 3 = [index, low, high] ∧
      lib.libraries[index.toNat]? = some c.library ∧
      (Bytes.toNat [low, high] : Int) = c.routine := by
  have hrun : ((Object.sharing.relocations.foldlM
      (fillCall .shared (linkUnder .shared .sha256 0 [])) (Job.start .sharing) >>=
        fun j => j.library .sha256).toOption.filter fun lib =>
        lib.calls.length = 3 && lib.libraries = [Library.other.id, Library.pinned.id]).isSome := by
    decide +kernel
  obtain ⟨lib, hrun⟩ := Option.isSome_iff_exists.mp hrun
  obtain ⟨hrun, hlib⟩ := Option.filter_eq_some_iff.mp hrun
  simp only [Bool.and_eq_true, decide_eq_true_eq] at hlib
  have hlink : linkObject .sharing .shared .sha256 = .ok lib :=
    linkObject_of_calls (by decide) (by decide) (by decide) (Steps.toOption_eq_some.mp hrun)
  have henv : Environment.shared.Made :=
    .addLibrary (.addLibrary (.addLibrary (.of (rfl : Environment.of [] [] [] = .ok {})) _ _) _ _)
      _ _
  have hbefore : Object.sharing.relocations.Pairwise fun r t =>
    r.offset + (r.kind.width : Int) ≤ t.offset := by decide
  obtain ⟨hnodup, -, horder, -, -, hcode⟩ := libraries_calls_and_code_agree henv
    List.mem_cons_self (hbefore.imp Relocation.Before.apart) hlink
  exact ⟨lib, hlink, hlib.1, hlib.2, hnodup, horder, hcode⟩

end AluVM
