import AluVM.Proofs.Identity
import AluVM.Proofs.Linking
import AluVM.Proofs.Objects

/-! # What linking may come to

An object in order (`Object.WellFormed`) can only fail to be linked for want of a library or of
an extension. The four ways to fail are listed in `LinkFault`; everything else that the linker
checks for, such as a field outside the code or an offset out of reach, cannot happen.

`linkFrom_yields` goes through the rounds of the linker once, for any class of errors: what the
steps for labels and for calls may come to is a hypothesis, so that the same lemma covers objects
without calls, which have to succeed, and objects with labels that are missing. `linkUnder_yields`
closes the recursion through the objects of the environment, also for any class of errors and for
any property of libraries; `link_yields` puts both together. -/

namespace AluVM

open Linker Steps

variable {names : Syntax.CharacterNames}

/-- **An object in order**: it lies within its bounds, and everything it asks for but labels and
libraries is there. -/
structure Object.WellFormed (o : Object) : Prop where
  mask : o.mask.Known
  length_code : o.code.length ≤ maxSegment
  length_data : o.data.length ≤ maxSegment
  inside : ∀ r ∈ o.relocations, 1 ≤ r.offset ∧ r.offset + r.kind.width ≤ o.code.length
  reach : ∀ x ∈ o.exports ++ o.symbols, 0 ≤ x.value ∧ x.value ≤ maxOffset
  datum : ∀ r ∈ o.relocations, r.kind = .dataAddress →
    ∃ x, o.lookup? r.target [.dataSymbol] = some x ∧ x.value ≤ o.data.length
  call : ∀ r ∈ o.relocations, r.kind = .externalCall → ∃ x, splitTarget? r.target = some x
  pins : ∀ ref ∈ o.libraries, ∀ id ∈ ref.id, ContentId.isId id = true

/-- Every label that a field asks for is there. -/
def Object.FindsLabels (o : Object) : Prop := ∀ r ∈ o.relocations, r.kind = .localOffset →
  ∃ x, o.lookup? r.target [.localLabel, .exportedLabel] = some x

/-- A library that can be called: its extensions have names, its id is in normal form, and its
routines are within reach. -/
structure Library.Callable (l : Library) : Prop where
  mask : l.mask.Known
  canonical : ContentId.Canonical l.id
  exports : ∀ x ∈ l.exports, 0 ≤ x.value ∧ x.value ≤ maxOffset

/-- **Why an object in order is not linked**: an extension is not supported, a library or routine
is missing, objects need each other, or there are too many libraries. -/
inductive LinkFault : Failure → Prop where
  | unsupported (missing : List String) (who : Option String) :
      LinkFault (.link (.unsupported missing who))
  | undefinedExternal (target : String) (reason : UndefinedReason) :
      LinkFault (.link (.undefinedExternal target reason))
  | cyclic (chain : List String) : LinkFault (.link (.cyclic chain))
  | tooManyLibraries (object : String) :
      LinkFault (.link (.tooManyLibraries object Job.maxLibraries))

/-! ### The steps of a job -/

/-- A job on its way from an object to its library. -/
structure Job.Of (o : Object) (j : Job) : Prop where
  object : j.object = o
  size : j.code.size = o.code.length
  libraries : ∀ id ∈ j.libraries, ContentId.Canonical id
  length : j.libraries.length ≤ Job.maxLibraries

section Job
variable {o : Object} {j : Job} {r : Relocation} {E : Failure → Prop}

theorem Job.start_of (o : Object) : (Job.start o).Of o :=
  ⟨rfl, List.size_toArray, by simp [Job.start], Nat.zero_le _⟩

theorem Job.Of.offsetField_yields (target : String) {value : Int} (hlow : 0 ≤ value)
    (hhigh : value ≤ maxOffset) :
    Yields (·.length = 2) E (Job.offsetField o.name target value) := by
  rw [Job.offsetField_eq_ok.mpr ⟨hlow, hhigh, rfl⟩]
  exact Bytes.length_ofNat 2 _

theorem Job.Of.patch_yields (hj : j.Of o) (ho : o.WellFormed) (hr : r ∈ o.relocations)
    {bytes : Bytes} (hwidth : bytes.length = r.kind.width) :
    Yields (Job.Of o) E (j.patch r.offset r.target bytes) := by
  obtain ⟨hfirst, hinside⟩ := ho.inside r hr
  have hend : r.offset + bytes.length ≤ j.code.size := by
    rw [hwidth, hj.size]
    exact hinside
  rw [Job.patch_eq_ok.mpr ⟨hfirst, hend, rfl⟩]
  exact ⟨hj.object, (Job.size_overwrite _ _ _).trans hj.size, hj.libraries, hj.length⟩

theorem Job.Of.resolve_yields {value : Object → String → Except Failure Int} (hj : j.Of o)
    (ho : o.WellFormed) (hr : r ∈ o.relocations) (hwidth : r.kind.width = 2)
    (hvalue : Yields (fun v : Int => 0 ≤ v ∧ v ≤ maxOffset) E (value o r.target)) :
    Yields (Job.Of o) E (j.resolve value r) := by
  unfold Job.resolve
  rw [hj.object]
  refine hvalue.bind fun v hv => (offsetField_yields r.target hv.1 hv.2).bind fun field hfield => ?_
  exact hj.patch_yields ho hr (hfield.trans hwidth.symm)

theorem Object.WellFormed.labelValue_yields (ho : o.WellFormed)
    (hE : o.lookup? r.target [.localLabel, .exportedLabel] = none →
      E (.internal (.unresolvedLabel o.name r.target))) :
    Yields (fun v : Int => 0 ≤ v ∧ v ≤ maxOffset) E (o.labelValue r.target) := by
  unfold Object.labelValue Object.symbolValue
  rcases hx : o.lookup? r.target [.localLabel, .exportedLabel] with _ | x
  · exact hE hx
  · exact ho.reach x (List.mem_of_find?_eq_some hx)

theorem Object.WellFormed.datumValue_yields (ho : o.WellFormed) (hr : r ∈ o.relocations)
    (hkind : r.kind = .dataAddress) :
    Yields (fun v : Int => 0 ≤ v ∧ v ≤ maxOffset) E (o.datumValue r.target) := by
  obtain ⟨x, hx, hend⟩ := ho.datum r hr hkind
  rw [Object.datumValue_eq_ok.mpr ⟨x, hx, rfl, hend⟩]
  exact ho.reach x (List.mem_of_find?_eq_some hx)

theorem Job.Of.libraryIndex_yields (hj : j.Of o) {id : String} (hid : ContentId.Canonical id) :
    Yields (fun x => x.2.Of o) LinkFault ((j.libraryIndex id).mapError .link) := by
  unfold Job.libraryIndex
  split
  · exact hj
  · split_ifs with hfull
    · exact .tooManyLibraries _
    · refine ⟨hj.object, hj.size, fun id' hid' => ?_, ?_⟩
      · rcases List.mem_append.mp hid' with hid' | hid'
        · exact hj.libraries id' hid'
        · rw [List.mem_singleton.mp hid']
          exact hid
      · rw [List.length_append, List.length_singleton]
        omega

theorem Job.Of.resolveCall_yields (hj : j.Of o) (ho : o.WellFormed) (hr : r ∈ o.relocations)
    (hkind : r.kind = .externalCall) {id : String} (hid : ContentId.Canonical id) {routine : Int}
    (hlow : 0 ≤ routine) (hhigh : routine ≤ maxOffset) :
    Yields (fun x => x.2.Of o) LinkFault (j.resolveCall r id routine) := by
  refine (hj.libraryIndex_yields hid).bind fun ⟨index, j'⟩ hj' => ?_
  simp only at hj' ⊢
  rw [hj'.object]
  refine (offsetField_yields r.target hlow hhigh).bind fun field hfield => ?_
  have hwidth : (UInt8.ofNat index :: field).length = r.kind.width := by
    rw [List.length_cons, hfield, hkind]
    rfl
  refine (hj'.patch_yields ho hr hwidth).bind fun j'' hj'' => ?_
  exact ⟨hj''.object, hj''.size, hj''.libraries, hj''.length⟩

/-- The library of a job has the exports of its object and a canonical id. -/
theorem Job.Of.library_yields (hj : j.Of o) (hmask : o.mask.Known)
    (hcode : o.code.length < 2 ^ 32) (hdata : o.data.length < 2 ^ 32) {s : ContentId.Strategy}
    (hs : s ∈ ContentId.Strategy.known) :
    Yields (fun l => l.mask.Known ∧ ContentId.Canonical l.id ∧ l.exports = o.exports) E
      (j.library s) := by
  have hlength := hj.length
  simp only [Job.maxLibraries] at hlength
  have hsize : j.code.toList.length = o.code.length := hj.size
  unfold Job.library
  rw [hj.object]
  obtain ⟨id, hbuild, hid⟩ := Library.exists_build hs (l := {
    id := "", mask := o.mask, code := j.code.toList, data := o.data, libraries := j.libraries,
    exports := o.exports, calls := j.calls, entry := o.entry, name := o.name })
    hmask (by simpa only [hsize] using hcode) hdata (by simp only; omega) hj.libraries
  rw [hbuild]
  exact ⟨hmask, hid, rfl⟩

end Job

/-! ### The rounds of the linker -/

section Rounds
variable {env : Environment} {s : ContentId.Strategy} {o : Object} {E : Failure → Prop}
  {f : String → Except Failure Library}

/-- **One object**, for any class of errors that holds those of its extensions, of its labels and
of its calls. -/
theorem linkFrom_yields (ho : o.WellFormed) (hs : s ∈ ContentId.Strategy.known)
    (hmask : Yields (fun _ => True) E (supports env o.mask o.name))
    (hlabel : ∀ r ∈ o.relocations, r.kind = .localOffset →
      o.lookup? r.target [.localLabel, .exportedLabel] = none →
        E (.internal (.unresolvedLabel o.name r.target)))
    (hcall : ∀ r ∈ o.relocations, r.kind = .externalCall → ∀ j : Job, j.Of o →
      Yields (Job.Of o) E (fillCall env f j r)) :
    Yields Library.Callable E (linkFrom env s f o) := by
  have hcode := ho.length_code
  have hdata := ho.length_data
  simp only [maxSegment] at hcode hdata
  refine linkFrom_rounds (fun j hj => hj.object) (Job.start_of o) hmask ?_ hcall ?_ ?_
  · exact fun r hr hkind j hj =>
      hj.resolve_yields ho hr (by rw [hkind]; rfl) (ho.labelValue_yields (hlabel r hr hkind))
  · exact fun r hr hkind j hj =>
      hj.resolve_yields ho hr (by rw [hkind]; rfl) (ho.datumValue_yields hr hkind)
  · intro j hj
    refine (hj.library_yields ho.mask (by omega) (by omega) hs).imp (fun l hl => ?_) fun _ he => he
    obtain ⟨hknown, hid, hexports⟩ := hl
    refine ⟨hknown, hid, fun x hx => ho.reach x (List.mem_append_left _ ?_)⟩
    rwa [← hexports]

theorem supports_yields {mask : Mask} (h : mask.Known) (env : Environment) (who : String) :
    Yields (fun _ => True) LinkFault (supports env mask who) := by
  obtain ⟨missing, hnames, -⟩ := (h.diff env.mask).names_ok
  unfold supports
  rw [hnames]
  dsimp only
  split_ifs
  · exact .unsupported missing (some who)
  · trivial

/-- Extensions are supported if the environment has all their bits. -/
theorem supports_eq_ok {mask : Mask} {who : String} :
    supports env mask who = .ok () ↔ mask.diff env.mask = 0 := by
  have hempty : ∀ k < 2 ^ 4, Mask.names (Int.ofNat k) = .ok [] → k = 0 := by decide
  unfold supports
  constructor
  · intro h
    split at h
    · cases h
    · rename_i missing hnames
      split_ifs at h with hmissing
      rw [Bool.not_eq_true, Bool.not_eq_false', List.isEmpty_iff] at hmissing
      subst hmissing
      obtain ⟨n, hn, hdiff⟩ := Mask.known_of_names hnames
      rw [hdiff] at hnames ⊢
      rw [hempty n hn hnames]
      rfl
  · intro h
    rw [h]
    rfl

/-- **An environment in order**: its objects are, and its libraries can be called. -/
structure Environment.WellFormed (env : Environment) : Prop where
  objects : ∀ x ∈ env.objects, x.2.WellFormed ∧ x.2.FindsLabels
  libraries : ∀ x ∈ env.libraries, x.2.Callable

theorem checkPin_yields {pinned : Option String}
    (h : ∀ id ∈ pinned, ContentId.isId id = true) (name target : String) (l : Library) :
    Yields (fun _ => True) LinkFault (checkPin pinned name target l) := by
  rcases pinned with _ | id
  · trivial
  · obtain ⟨normal, hnormal⟩ := ContentId.normalize_of_isId (h id rfl)
    simp only [checkPin, hnormal]
    split_ifs
    · trivial
    · exact .undefinedExternal _ _

section Any
variable {P : Library → Prop}

theorem Environment.of_library? (hlibraries : ∀ x ∈ env.libraries, P x.2) {id : String}
    {l : Library} (h : env.library? id = some l) : P l := by
  obtain ⟨normal, -, -, hmem⟩ := Environment.mem_of_library? h
  exact hlibraries _ hmem

theorem of_known? (hlibraries : ∀ x ∈ env.libraries, P x.2) {pinned : Option String}
    {name : String} {l : Library} (h : known? env pinned name = some l) : P l := by
  rcases known?_eq_some.mp h with h | ⟨-, h⟩
  · obtain ⟨id, -, hid⟩ := Option.bind_eq_some_iff.mp h
    exact env.of_library? hlibraries hid
  · obtain ⟨id, -, hid⟩ := Option.bind_eq_some_iff.mp h
    exact env.of_library? hlibraries hid

theorem libraryAt_yields (hlibraries : ∀ x ∈ env.libraries, P x.2)
    (hf : ∀ name, Yields P E (f name)) (pinned : Option String) (name : String) :
    Yields (fun found => ∀ l ∈ found, P l) E (libraryAt env f pinned name) := by
  unfold libraryAt
  split
  · rename_i l hl
    rintro l' ⟨⟩
    exact of_known? hlibraries hl
  · split_ifs
    · rw [map_eq_pure_bind]
      refine (hf name).bind fun l hl => ?_
      rintro l' ⟨⟩
      exact hl
    · exact fun l hl => env.of_library? hlibraries hl

/-- The library of a call, for any property of libraries whose masks can be checked. -/
theorem libraryFor_yields (hlibraries : ∀ x ∈ env.libraries, P x.2)
    (hf : ∀ name, Yields P E (f name))
    (hundefined : ∀ target reason, E (.link (.undefinedExternal target reason)))
    (hmask : ∀ l, P l → ∀ who, Yields (fun _ => True) E (supports env l.mask who))
    {name target : String}
    (hpin : ∀ l, Yields (fun _ => True) E (checkPin (o.libraryId? name) name target l)) :
    Yields P E (libraryFor env f o name target) := by
  refine (libraryAt_yields hlibraries hf _ name).bind fun found hfound => ?_
  rcases found with _ | l
  · exact hundefined _ _
  · have hl := hfound l rfl
    refine (hpin l).bind fun _ _ => ?_
    exact (hmask l hl _).bind fun _ _ => hl

/-- **The recursion through the objects of the environment**: what one object comes to, given the
libraries of those that it calls, all of them come to. -/
theorem linkUnder_yields {O : Object → Prop} (hobjects : ∀ x ∈ env.objects, O x.2)
    (hundefined : ∀ target reason, E (.link (.undefinedExternal target reason)))
    (hcyclic : ∀ chain, E (.link (.cyclic chain)))
    (hfrom : ∀ f : String → Except Failure Library, (∀ name, Yields P E (f name)) →
      ∀ o, O o → Yields P E (linkFrom env s f o)) :
    ∀ (fuel : Nat) (stack : List String) (name : String),
      Yields P E (linkUnder env s fuel stack name) := by
  have hunless : ∀ (stack : List String) {fresh : Object → Except Failure Library},
      (∀ o, O o → Yields P E (fresh o)) →
      ∀ name, Yields P E (unlessUnder env stack fresh name) := by
    intro stack fresh hfresh name
    unfold unlessUnder
    split_ifs
    · exact hcyclic _
    · split
      · exact hundefined _ _
      · rename_i o hget
        exact hfresh o (hobjects _ (Dict.mem_of_get? hget))
  intro fuel
  induction fuel with
  | zero =>
    intro stack name
    rw [linkUnder]
    refine hunless stack (fun o _ => ?_) name
    exact hundefined _ _
  | succ fuel ih =>
    intro stack name
    rw [linkUnder]
    exact hunless stack (hfrom _ (ih (stack ++ [name]))) name

end Any

theorem fillCall_yields (ho : o.WellFormed) (henv : env.WellFormed)
    (hf : ∀ name, Yields Library.Callable LinkFault (f name)) {r : Relocation}
    (hr : r ∈ o.relocations) (hkind : r.kind = .externalCall) {j : Job} (hj : j.Of o) :
    Yields (Job.Of o) LinkFault (fillCall env f j r) := by
  obtain ⟨⟨name, routine⟩, hsplit⟩ := ho.call r hr hkind
  have hpins : ∀ id ∈ o.libraryId? name, ContentId.isId id = true := by
    intro id hid
    obtain ⟨ref, href, hid⟩ := Option.bind_eq_some_iff.mp hid
    exact ho.pins ref (List.mem_of_find?_eq_some href) id hid
  have hlibrary : Yields Library.Callable LinkFault (libraryFor env f o name r.target) :=
    libraryFor_yields henv.libraries hf .undefinedExternal
      (fun l hl => supports_yields hl.mask env) (checkPin_yields hpins name r.target)
  simp only [fillCall, hsplit, hj.object]
  refine hlibrary.bind fun l hl => ?_
  rcases hoffset : exportOffset? l.exports routine with _ | offset
  · exact .undefinedExternal _ _
  · obtain ⟨x, hx, rfl⟩ := Option.map_eq_some_iff.mp hoffset
    obtain ⟨hlow, hhigh⟩ := hl.exports x (List.mem_of_find?_eq_some hx)
    exact (hj.resolveCall_yields ho hr hkind hl.canonical hlow hhigh).bind fun _ hx => hx

/-- An object in order, given the libraries of the objects that it calls. -/
theorem linkFrom_yields_fault (henv : env.WellFormed) (hs : s ∈ ContentId.Strategy.known)
    (hf : ∀ name, Yields Library.Callable LinkFault (f name))
    (ho : o.WellFormed ∧ o.FindsLabels) :
    Yields Library.Callable LinkFault (linkFrom env s f o) := by
  refine linkFrom_yields ho.1 hs (supports_yields ho.1.mask env o.name) ?_ ?_
  · intro r hr hkind hnone
    obtain ⟨x, hx⟩ := ho.2 r hr hkind
    rw [hnone] at hx
    cases hx
  · exact fun r hr hkind j hj => fillCall_yields ho.1 henv hf hr hkind hj

/-- **Linking an object in order** gives a library that can be called, or one of four errors. -/
theorem link_yields (ho : o.WellFormed) (hlabels : o.FindsLabels) (henv : env.WellFormed)
    (hs : s ∈ ContentId.Strategy.known) :
    Yields Library.Callable LinkFault (linkObject o env s) := by
  rw [linkObject_eq]
  refine linkFrom_yields_fault henv hs (fun name => ?_) ⟨ho, hlabels⟩
  exact linkUnder_yields henv.objects .undefinedExternal .cyclic
    (fun _ hf _ => linkFrom_yields_fault henv hs hf) _ [] name

/-- **An object without calls** is linked if its extensions are supported; what may fail is a label
that is missing. -/
theorem link_yields_of_no_call (ho : o.WellFormed) (hs : s ∈ ContentId.Strategy.known)
    (hmask : supports env o.mask o.name = .ok ())
    (hcalls : ∀ r ∈ o.relocations, r.kind ≠ .externalCall)
    (hlabel : ∀ r ∈ o.relocations, r.kind = .localOffset →
      o.lookup? r.target [.localLabel, .exportedLabel] = none →
        E (.internal (.unresolvedLabel o.name r.target))) :
    Yields Library.Callable E (linkObject o env s) := by
  rw [linkObject_eq]
  refine linkFrom_yields ho hs (by rw [hmask]; trivial) hlabel ?_
  exact fun r hr hkind => absurd hkind (hcalls r hr)

end Rounds

namespace Analysis

open Syntax

/-! ### Assembled objects -/

section Assembled
variable {p : Program} {a : Analysis} {o : Object}

/-- A symbol that no other one of the given kinds shares its name with is found. -/
theorem lookup?_of_unique {x : ObjectSymbol} (hx : x ∈ o.exports ++ o.symbols)
    {kinds : List SymbolKind} (hkind : x.kind ∈ kinds)
    (hunique : ∀ y ∈ o.exports ++ o.symbols, y.name = x.name → y.kind ∈ kinds → y = x) :
    o.lookup? x.name kinds = some x := by
  rcases hfound : o.lookup? x.name kinds with _ | y
  · have := List.find?_eq_none.mp hfound x hx
    simp [hkind] at this
  · obtain ⟨hy, hname, rfl | hykind⟩ := lookup?_eq_some hfound
    · cases hkind
    · rw [hunique y hy hname hykind]

/-- A symbol is found under its own name among the kinds of its namespace. -/
theorem Assembled.lookup?_eq (h : Assembled p a o) {x : ObjectSymbol}
    (hx : x ∈ o.exports ++ o.symbols) {kinds : List SymbolKind} (hkind : x.kind ∈ kinds)
    (hspace : ∀ k ∈ kinds, k.space = x.kind.space) : o.lookup? x.name kinds = some x :=
  lookup?_of_unique hx hkind fun _ hy hname hykind => h.eq_of_name hy hx (hspace _ hykind) hname

theorem kind_of_space_code {k : SymbolKind} (h : k.space = .code) :
    k ∈ [SymbolKind.localLabel, .exportedLabel] := by
  cases k <;> simp_all [SymbolKind.space]

theorem kind_of_space_data {k : SymbolKind} (h : k.space = .data) :
    k ∈ [SymbolKind.dataSymbol] := by
  cases k <;> simp_all [SymbolKind.space]

theorem Assembled.lookup?_label (h : Assembled p a o) {x : ObjectSymbol}
    (hx : x ∈ o.exports ++ o.symbols) (hspace : x.kind.space = .code) :
    o.lookup? x.name [.localLabel, .exportedLabel] = some x :=
  h.lookup?_eq hx (kind_of_space_code hspace) fun k hk => by
    rw [hspace]
    revert k
    decide

theorem Assembled.lookup?_datum (h : Assembled p a o) {x : ObjectSymbol}
    (hx : x ∈ o.exports ++ o.symbols) (hspace : x.kind.space = .data) :
    o.lookup? x.name [.dataSymbol] = some x :=
  h.lookup?_eq hx (kind_of_space_data hspace) fun k hk => by
    rw [hspace]
    revert k
    decide

theorem Assembled.findsLabels (h : Assembled p a o) : o.FindsLabels := by
  intro r hr hkind
  rcases h.exists_target hr with ⟨-, x, hx, hname, hspace⟩ | ⟨hk, -⟩ | ⟨hk, -⟩
  · exact ⟨x, hname ▸ h.lookup?_label hx hspace⟩
  · cases hk.symm.trans hkind
  · cases hk.symm.trans hkind

/-- **The object of an accepted program is in order.** -/
theorem Assembled.wellFormed (h : Assembled p a o) : o.WellFormed where
  mask := h.encoded.mask ▸ h.accepted.mask
  length_code := h.length_code
  length_data := h.length_data.2
  inside _ hr := h.inside hr
  reach _ hx := h.reach hx
  datum r hr hkind := by
    rcases h.exists_target hr with ⟨hk, -⟩ | ⟨-, x, hx, hname, hspace⟩ | ⟨hk, -⟩
    · cases hk.symm.trans hkind
    · refine ⟨x, hname ▸ h.lookup?_datum hx hspace, ?_⟩
      obtain ⟨before, d, after, hdata, -, hvalue⟩ := h.exists_datum hx hspace
      rw [hvalue, h.length_data.1, hdata, List.map_append, List.sum_append]
      omega
    · cases hk.symm.trans hkind
  call r hr hkind := by
    rcases h.exists_target hr with ⟨hk, -⟩ | ⟨hk, -⟩ | ⟨-, library, routine, hname, htarget, -⟩
    · cases hk.symm.trans hkind
    · cases hk.symm.trans hkind
    · exact ⟨_, htarget ▸ splitTarget?_callName hname⟩
  pins ref href id hid := by
    rw [h.encoded.libraries] at href
    obtain ⟨x, hx, rfl⟩ := List.mem_map.mp href
    exact h.accepted.pins x hx id hid

/-- An object without calls is linked wherever its extensions are supported. -/
theorem Assembled.exists_link (h : Assembled p a o) {env : Environment} {s : ContentId.Strategy}
    (hs : s ∈ ContentId.Strategy.known) (hmask : o.mask.diff env.mask = 0)
    (hcalls : ∀ r ∈ o.relocations, r.kind ≠ .externalCall) :
    ∃ lib, linkObject o env s = .ok lib := by
  have hyields : Yields Library.Callable (fun _ => False) (linkObject o env s) := by
    refine link_yields_of_no_call h.wellFormed hs
      (supports_eq_ok.mpr hmask) hcalls fun r hr hkind hnone => ?_
    obtain ⟨x, hx⟩ := h.findsLabels r hr hkind
    cases hnone.symm.trans hx
  obtain ⟨lib, hlib, -⟩ := yields_iff_exists.mp hyields
  exact ⟨lib, hlib⟩

theorem FromSource.diff_full (h : FromSource o) : o.mask.diff Mask.full = 0 := by
  obtain ⟨p, a, hpart⟩ := h.assembled
  exact hpart.wellFormed.mask.diff_full

end Assembled

/-- **No check of the assembler and linker fails for a reason of their own.** An accepted program
has an object. In an environment of such objects and of libraries that are what their ids say and
export offsets within reach, the object is linked, or it is refused for one of the reasons that lie
in the environment. -/
theorem encodes_and_links_or_faults {text : String} {file file' : Option String} {p : Program}
    {extra : List String} {a : Analysis} (hparse : parse names text file = .ok p)
    (hanalysis : ofProgram p extra file' = .ok a) (hok : a.ok = true) (name : Option String) :
    ∃ o, a.encode name = .ok o ∧ ∀ (env : Environment) (s : ContentId.Strategy),
      (∀ x ∈ env.objects, FromSource x.2) →
      (∀ x ∈ env.libraries, x.2.verify = .ok true ∧
        ∀ e ∈ x.2.exports, 0 ≤ e.value ∧ e.value ≤ maxOffset) →
      s ∈ ContentId.Strategy.known →
      (∃ lib, linkObject o env s = .ok lib) ∨
        ∃ fault, linkObject o env s = .error fault ∧ LinkFault fault := by
  have hwritten := parse_written hparse
  have haccepted := ofProgram_accepted hanalysis hok
  obtain ⟨o, ho, -, hencoded⟩ := exists_encode hwritten haccepted hok name
  have h : Assembled p a o := ⟨hwritten, haccepted, hencoded⟩
  refine ⟨o, ho, fun env s hobjects hlibraries hs => ?_⟩
  have henv : env.WellFormed := by
    refine ⟨fun x hx => ?_, fun x hx => ?_⟩
    · obtain ⟨p', a', h'⟩ := (hobjects x hx).assembled
      exact ⟨h'.wellFormed, h'.findsLabels⟩
    · obtain ⟨hverify, hexports⟩ := hlibraries x hx
      obtain ⟨hmask, hid⟩ := Library.canonical_of_verify hverify
      exact ⟨hmask, hid, hexports⟩
  have hyields := link_yields h.wellFormed h.findsLabels henv hs
  rcases hlink : linkObject o env s with fault | lib
  · rw [hlink] at hyields
    exact Or.inr ⟨fault, rfl, hyields⟩
  · exact Or.inl ⟨lib, rfl⟩

/-- A program with a constant, data, a jump ahead and a call. -/
def callerSource : String :=
  ".LIBS\nutil\n.CONST\nLIMIT = 0x10\n.DATA\nkey = u16 7\n.MAIN\ninc a16[3], LIMIT\n" ++
  "jmp done\nputd s16[0], key\ncall util.sum\ndone: ret\n"

/-- The library that it calls. -/
def calleeSource : String := ".ROUTINE first\nnop\n.ROUTINE sum\nret\n"

theorem encodes_and_links_or_faults_of_caller : ∃ p a o d,
    parse nameless callerSource none = .ok p ∧ ofProgram p [] none = .ok a ∧ a.ok = true ∧
    a.encode none = .ok o ∧ objectOf? calleeSource = some d ∧
    ((∃ lib, linkObject o { objects := [("util", d)] } .sha256 = .ok lib) ∨
      ∃ fault, linkObject o { objects := [("util", d)] } .sha256 = .error fault ∧
        LinkFault fault) := by
  obtain ⟨o, ho⟩ := Option.isSome_iff_exists.mp
    (by decide +kernel : (objectOf? callerSource).isSome)
  obtain ⟨d, hd⟩ := Option.isSome_iff_exists.mp
    (by decide +kernel : (objectOf? calleeSource).isSome)
  obtain ⟨p, a, hparse, hanalysis, hok, hencode⟩ := stages_of_objectOf? ho
  obtain ⟨o', ho', hlink⟩ := encodes_and_links_or_faults hparse hanalysis hok none
  cases hencode.symm.trans ho'
  refine ⟨p, a, o, d, hparse, hanalysis, hok, hencode, hd, hlink _ .sha256 ?_ ?_ ?_⟩
  · intro x hx
    rw [List.mem_singleton.mp hx]
    exact fromSource_of_objectOf? hd
  · simp
  · exact List.mem_cons_self

end Analysis

end AluVM
