import AluVM.Proofs.Outcomes
import AluVM.Proofs.Resolution

/-! # The call table of a linked object

Every call of an object has an entry in the call table of its library, and the entries stand in the
order of the fields of the calls. What an entry says is `Resolves`: the library behind the local
name, which is looked for in four places (`Found`), is the one that the object fixes, if it fixes
one, and runs where the object does; the offset is that of the first routine of the right name.

The table is built call by call. `fillCall_lists` is the step, `fillCalls_lists` the round, and with
the table grows the list of libraries, which holds the ids of the entries and no others. -/

namespace AluVM

open Linker

/-- **Where the library of a local name is found.** A place counts only if there is nothing at those
before it. -/
inductive Found (env : Environment) (s : ContentId.Strategy) (o : Object) (name : String) :
    Library → Prop where
  /-- The id that the object fixes. -/
  | pinned {id : String} {l : Library} (fixed : o.libraryId? name = some id)
      (listed : env.library? id = some l) : Found env s o name l
  /-- The id that the environment has for the name. -/
  | aliased {id : String} {l : Library} (unpinned : (o.libraryId? name).bind env.library? = none)
      (named : env.aliases.get? name = some id) (listed : env.library? id = some l) :
      Found env s o name l
  /-- The object of the name. -/
  | inline {d : Object} {l : Library} (unpinned : (o.libraryId? name).bind env.library? = none)
      (unaliased : (env.aliases.get? name).bind env.library? = none)
      (object : env.objects.get? name = some d) (linked : linkObject d env s = .ok l) :
      Found env s o name l
  /-- The name itself. -/
  | direct {l : Library} (unpinned : (o.libraryId? name).bind env.library? = none)
      (unaliased : (env.aliases.get? name).bind env.library? = none)
      (absent : env.objects.get? name = none) (listed : env.library? name = some l) :
      Found env s o name l

/-- **An entry resolves the call of a routine** by its library. -/
structure Resolves (env : Environment) (s : ContentId.Strategy) (o : Object)
    (name routine : String) (l : Library) (c : CallSite) : Prop where
  found : Found env s o name l
  pin : ∀ id, o.libraryId? name = some id → ContentId.normalize id = .ok l.id
  mask : l.mask.diff env.mask = 0
  library : c.library = l.id
  routine : ∃ x, l.exports.find? (·.name = routine) = some x ∧ c.routine = x.value
  low : 0 ≤ c.routine
  high : c.routine ≤ maxOffset

section Found
variable {env : Environment} {s : ContentId.Strategy} {o : Object} {name : String} {l : Library}

theorem found_of_resolution? (h : resolution? env s o name = some l) : Found env s o name l := by
  unfold resolution? at h
  split at h
  · rename_i hknown
    cases h
    rcases known?_eq_some.mp hknown with hpinned | ⟨hpinned, haliased⟩
    · obtain ⟨id, hfixed, hlisted⟩ := Option.bind_eq_some_iff.mp hpinned
      exact .pinned hfixed hlisted
    · obtain ⟨id, hnamed, hlisted⟩ := Option.bind_eq_some_iff.mp haliased
      exact .aliased hpinned hnamed hlisted
  · rename_i hknown
    obtain ⟨hpinned, haliased⟩ := known?_eq_none.mp hknown
    split at h
    · rename_i d hd
      rcases hlink : linkObject d env s with e | l'
      · rw [hlink] at h
        cases h
      · rw [hlink] at h
        cases h
        exact .inline hpinned haliased hd hlink
    · rename_i habsent
      exact .direct hpinned haliased habsent h

/-- There is one library to be found. -/
theorem Found.resolution? (h : Found env s o name l) : resolution? env s o name = some l := by
  unfold AluVM.resolution?
  cases h with
  | pinned fixed listed =>
    have hpinned : (o.libraryId? name).bind env.library? = some l := by rw [fixed]; exact listed
    rw [known?_eq_some.mpr (Or.inl hpinned)]
  | aliased unpinned named listed =>
    have haliased : (env.aliases.get? name).bind env.library? = some l := by rw [named]; exact listed
    rw [known?_eq_some.mpr (Or.inr ⟨unpinned, haliased⟩)]
  | inline unpinned unaliased object linked =>
    rw [known?_eq_none.mpr ⟨unpinned, unaliased⟩, object]
    exact Steps.toOption_eq_some.mpr linked
  | direct unpinned unaliased absent listed =>
    rw [known?_eq_none.mpr ⟨unpinned, unaliased⟩, absent]
    exact listed

/-- A library that is found was looked up by an id or is that of the object of the name. -/
theorem Found.source (h : Found env s o name l) : (∃ id, env.library? id = some l) ∨
    ∃ d, env.objects.get? name = some d ∧ linkObject d env s = .ok l := by
  cases h with
  | pinned _ listed => exact Or.inl ⟨_, listed⟩
  | aliased _ _ listed => exact Or.inl ⟨_, listed⟩
  | inline _ _ object linked => exact Or.inr ⟨_, object, linked⟩
  | direct _ _ _ listed => exact Or.inl ⟨_, listed⟩

theorem Found.held (h : Found env s o name l) : (∃ id, (id, l) ∈ env.libraries) ∨
    ∃ d, env.objects.get? name = some d ∧ linkObject d env s = .ok l := by
  rcases h.source with ⟨id, hid⟩ | hobject
  · obtain ⟨normal, -, -, hmem⟩ := Environment.mem_of_library? hid
    exact Or.inl ⟨normal, hmem⟩
  · exact Or.inr hobject

theorem checkPin_eq_ok {pinned : Option String} {target : String}
    (h : checkPin pinned name target l = .ok ()) {id : String} (hid : pinned = some id) :
    ContentId.normalize id = .ok l.id := by
  subst hid
  unfold checkPin at h
  dsimp only at h
  split at h
  · cases h
  · rename_i normal hnormal
    split_ifs at h with hsame
    rw [hnormal, hsame]

theorem libraryFor_eq_ok {f : String → Except Failure Library} {target : String}
    (h : libraryFor env f o name target = .ok l) :
    (∀ id, o.libraryId? name = some id → ContentId.normalize id = .ok l.id) ∧
      l.mask.diff env.mask = 0 := by
  obtain ⟨found, -, h⟩ := Steps.bind_eq_ok.mp h
  rcases found with _ | l'
  · cases h
  · obtain ⟨_, hpin, h⟩ := Steps.bind_eq_ok.mp h
    obtain ⟨_, hmask, h⟩ := Steps.bind_eq_ok.mp h
    cases h
    exact ⟨fun _ => checkPin_eq_ok hpin, supports_eq_ok.mp hmask⟩

end Found

/-! ### The table -/

section Table
variable {env : Environment} {s : ContentId.Strategy} {o : Object}

/-- The entry of a call. -/
def TableEntry (env : Environment) (s : ContentId.Strategy) (o : Object) (r : Relocation)
    (c : CallSite) : Prop :=
  c.offset = r.offset ∧ ∃ name routine l, splitTarget? r.target = some (name, routine) ∧
    Resolves env s o name routine l c

/-- A job whose table lists the calls that are done. -/
structure Lists (env : Environment) (s : ContentId.Strategy) (o : Object) (done : List Relocation)
    (j : Job) : Prop where
  object : j.object = o
  entries : List.Forall₂ (TableEntry env s o) done j.calls
  libraries : ∀ id, id ∈ j.libraries ↔ ∃ c ∈ j.calls, c.library = id

theorem Lists.congr {done : List Relocation} {j j' : Job} (h : Lists env s o done j)
    (hobject : j'.object = j.object) (hlibraries : j'.libraries = j.libraries)
    (hcalls : j'.calls = j.calls) : Lists env s o done j' := by
  refine ⟨hobject.trans h.object, hcalls ▸ h.entries, ?_⟩
  rw [hlibraries, hcalls]
  exact h.libraries

theorem fillCall_lists {done : List Relocation} {j j' : Job} {r : Relocation}
    (hj : Lists env s o done j)
    (h : fillCall env (linkUnder env s env.objects.length []) j r = .ok j') :
    Lists env s o (done ++ [r]) j' := by
  obtain ⟨name, routine, l, offset, index, hsplit, hl, hoffset, hcall⟩ := fillCall_eq_ok h
  obtain ⟨hlow, hhigh, -, -, -, hfills, hcalls, hmem⟩ := Job.resolveCall_eq_ok hcall
  rw [hj.object] at hl
  obtain ⟨hpin, hmask⟩ := libraryFor_eq_ok hl
  obtain ⟨x, hx, hvalue⟩ := Option.map_eq_some_iff.mp hoffset
  have hresolves : Resolves env s o name routine l ⟨r.offset, l.id, offset⟩ :=
    ⟨found_of_resolution? (resolution?_of_libraryFor hl), hpin, hmask, rfl, ⟨x, hx, hvalue.symm⟩,
      hlow, hhigh⟩
  -- The table grows by one entry, the list of libraries by the id of that entry if it is new.
  refine ⟨hfills.object.trans hj.object, ?_, fun id => ?_⟩
  · rw [hcalls]
    exact List.rel_append hj.entries (.cons ⟨rfl, name, routine, l, hsplit, hresolves⟩ .nil)
  · rw [hmem, hj.libraries, hcalls]
    simp only [List.mem_append, List.mem_singleton, or_and_right, exists_or, exists_eq_left]
    rw [eq_comm]

theorem fillCalls_lists {j j' : Job} (hcalls : j.calls = []) (hlibraries : j.libraries = [])
    (h : fillCalls env (linkUnder env s env.objects.length []) j = .ok j') :
    Lists env s j.object (j.object.relocationsOf .externalCall) j' :=
  Steps.foldlM_induction (Lists env s j.object) ⟨rfl, hcalls ▸ .nil, by simp [hcalls, hlibraries]⟩
    (fun _ _ _ _ _ _ hk hstep => fillCall_lists hk hstep) h

/-- The round of the calls while an object is linked: the table is empty before it, and it is not
touched after it. -/
theorem exists_fillCalls {lib : Library} (h : linkObject o env s = .ok lib) :
    o.mask.diff env.mask = 0 ∧ ∃ j1 j2 j3 : Job, j1.object = o ∧ j1.libraries = [] ∧
      j1.calls = [] ∧ fillCalls env (linkUnder env s env.objects.length []) j1 = .ok j2 ∧
      j3.object = j2.object ∧ j3.libraries = j2.libraries ∧ j3.calls = j2.calls ∧
      j3.library s = .ok lib := by
  rw [linkObject_eq] at h
  obtain ⟨hmask, j1, j2, j3, h1, h2, h3, h⟩ := linkFrom_eq_ok.mp h
  obtain ⟨-, hobject, hlibraries, hcalls⟩ := @resolveLabels_filled env s lib _ _ h1
  obtain ⟨-, hdata⟩ := @resolveData_filled env s lib _ _ h3
  exact ⟨supports_eq_ok.mp hmask, j1, j2, j3, hobject, hlibraries, hcalls, h2, hdata.1, hdata.2.1,
    hdata.2.2, h⟩

/-- **A linked object** is the library of a job whose table lists its calls. -/
theorem exists_lists {lib : Library} (h : linkObject o env s = .ok lib) :
    o.mask.diff env.mask = 0 ∧
      ∃ j, Lists env s o (o.relocationsOf .externalCall) j ∧ j.library s = .ok lib := by
  obtain ⟨hmask, j1, j2, j3, rfl, hempty, hnone, h2, hobject, hlibraries, hcalls, h⟩ :=
    exists_fillCalls h
  exact ⟨hmask, j3, (fillCalls_lists hnone hempty h2).congr hobject hlibraries hcalls, h⟩

/-- A library keeps the extensions, the name and the entry of its object. -/
theorem keeps_of_linkObject {lib : Library} (h : linkObject o env s = .ok lib) :
    lib.mask = o.mask ∧ lib.name = o.name ∧ lib.entry = o.entry := by
  obtain ⟨-, j, hlists, hlibrary⟩ := exists_lists h
  obtain ⟨ids, -, hlibrary⟩ := Steps.bind_eq_ok.mp hlibrary
  obtain ⟨content, -, hlibrary⟩ := Steps.bind_eq_ok.mp hlibrary
  obtain ⟨id, -, hlibrary⟩ := Steps.bind_eq_ok.mp hlibrary
  cases hlibrary
  rw [← hlists.object]
  exact ⟨rfl, rfl, rfl⟩

end Table

/-- **Calls are resolved soundly.** The extensions of an object that is linked are supported, and
each of its calls, of a routine behind the first dot of the target, has an entry in the call table
that resolves it by a library of the environment or of one of its objects. -/
theorem calls_resolved {env : Environment} {s : ContentId.Strategy} {o : Object} {lib : Library}
    (h : linkObject o env s = .ok lib) :
    o.mask.diff env.mask = 0 ∧ ∀ r ∈ o.relocations, r.kind = .externalCall →
      ∃ name routine l, ∃ c ∈ lib.calls,
        r.target = name ++ "." ++ routine ∧ '.' ∉ name.toList ∧ c.offset = r.offset ∧
        ((∃ id, (id, l) ∈ env.libraries) ∨
          ∃ d, env.objects.get? name = some d ∧ linkObject d env s = .ok l) ∧
        Resolves env s o name routine l c := by
  obtain ⟨hmask, j, hlists, hlibrary⟩ := exists_lists h
  obtain ⟨-, -, -, -, -, hcalls⟩ := library_eq_ok hlibrary
  refine ⟨hmask, fun r hr hkind => ?_⟩
  obtain ⟨c, hc, hoffset, name, routine, l, hsplit, hresolves⟩ :=
    Steps.exists_mem_right hlists.entries r (mem_relocationsOf.mpr ⟨hr, hkind⟩)
  rw [← hcalls] at hc
  obtain ⟨htarget, hname⟩ := splitTarget?_eq_some.mp hsplit
  exact ⟨name, routine, l, c, hc, htarget, hname, hoffset, hresolves.found.held, hresolves⟩

/-- An object that calls a routine of a library that it fixes, with digits in capitals. -/
def Object.pinning : Object where
  name := "main"
  mask := 1
  code := [0x71, 0, 0, 0]
  data := []
  libraries := [⟨"lib", some ("sha256:" ++ String.ofList (List.replicate 64 'A'))⟩]
  relocations := [⟨1, .externalCall, "lib.run.fast"⟩]

/-- The library, which exports two routines of that name. -/
def Library.pinned : Library where
  id := "sha256:" ++ String.ofList (List.replicate 64 'a')
  mask := 3
  code := [0, 0, 0, 0]
  data := []
  exports := [⟨"run", .exportedLabel, 1⟩, ⟨"run.fast", .exportedLabel, 3⟩,
    ⟨"run.fast", .exportedLabel, 2⟩]

theorem calls_resolved_of_pinning :
    ∃ lib, linkObject .pinning { libraries := [(Library.pinned.id, .pinned)] } = .ok lib ∧
      ∃ name routine l, ∃ c ∈ lib.calls, "lib.run.fast" = name ++ "." ++ routine ∧
        '.' ∉ name.toList ∧ c.offset = 1 ∧
        ((∃ id, (id, l) ∈ [(Library.pinned.id, Library.pinned)]) ∨
          ∃ d, Dict.get? [] name = some d ∧
            linkObject d { libraries := [(Library.pinned.id, .pinned)] } = .ok l) ∧
        Resolves { libraries := [(Library.pinned.id, .pinned)] } .sha256 .pinning name routine l
          c := by
  obtain ⟨lib, hlib⟩ := Steps.exists_of_isOk (by decide +kernel :
    (linkObject .pinning { libraries := [(Library.pinned.id, .pinned)] }).isOk = true)
  exact ⟨lib, hlib, (calls_resolved hlib).2 ⟨1, .externalCall, "lib.run.fast"⟩
    List.mem_cons_self rfl⟩

end AluVM
