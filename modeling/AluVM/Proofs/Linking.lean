import AluVM.Link.Linker
import AluVM.Proofs.Fields
import Mathlib.Data.List.Perm.Subperm
import Mathlib.Data.List.TakeDrop
import Mathlib.Logic.Relation

/-! # Linking without a memory

A linker remembers what it has linked and what is under way. Here the same linking is a function
of the environment alone, in three forms:

* `linkFrom`: an object, given the libraries of the objects that it calls;
* `linkUnder`: an object of the environment while others are under way, with the check for cycles;
* `linkDeep`: an object of the environment with a bound on the depth in place of that check.

The linker acts as `linkUnder` (`nested_acts`) as long as everything that it remembers is a
result of `linkDeep`. The step that needs an argument is a name that is remembered: it has a finite
depth, and everything under way needs it, so that none of the objects that it needs in turn is
under way (`linkUnder_of_linkDeep`). In the end no trace is left of memory and stack:
`linkObject_eq`, and what an object of the environment contributes is what it gives when it is
linked on its own (`linkObject_of_linkUnder`). -/

namespace AluVM

/-! ### Dictionaries -/

namespace Dict

variable {α : Type} {d : Dict α} {name other : String} {a b : α}

theorem mem_of_get? (h : d.get? name = some a) : (name, a) ∈ d := by
  obtain ⟨before, after, rfl, -⟩ := List.lookup_eq_some_iff.mp h
  simp

theorem has_iff : d.has name = true ↔ ∃ x ∈ d, x.1 = name := by
  simp [Dict.has]

theorem has_of_get? (h : d.get? name = some a) : d.has name = true :=
  has_iff.mpr ⟨_, mem_of_get? h, rfl⟩

theorem lookup_map_put : (d.map fun (k, v) => (k, if k = name then a else v)).lookup other =
    (d.lookup other).map fun v => if other = name then a else v := by
  induction d with
  | nil => rfl
  | cons x d ih =>
    obtain ⟨k, v⟩ := x
    by_cases hk : other = k
    · subst hk
      simp
    · have hne : (other == k) = false := by simpa using hk
      simp only [List.map_cons, List.lookup_cons, hne, ih]

theorem has_eq_isSome : d.has name = (d.get? name).isSome := by
  induction d with
  | nil => rfl
  | cons x d ih =>
    obtain ⟨k, v⟩ := x
    have hcons : Dict.has ((k, v) :: d) name = (decide (k = name) || Dict.has d name) := rfl
    rw [hcons, ih, Dict.get?, Dict.get?, List.lookup_cons]
    by_cases hk : k = name
    · subst hk
      simp
    · have hne : (name == k) = false := by simpa using Ne.symm hk
      simp [hk, hne]

/-- The value of a name after another or the same name got a value. -/
theorem get?_put_eq (d : Dict α) (name other : String) (a : α) :
    (d.put name a).get? other = if other = name then some a else d.get? other := by
  unfold Dict.put
  split_ifs with hhas hname hname
  · subst hname
    rw [has_eq_isSome, Option.isSome_iff_exists] at hhas
    obtain ⟨v, hv⟩ := hhas
    rw [Dict.get?] at hv
    simp [Dict.get?, lookup_map_put, hv]
  · simp [Dict.get?, lookup_map_put, hname]
  · subst hname
    rw [has_eq_isSome, Bool.not_eq_true, Option.isSome_eq_false_iff, Option.isNone_iff_eq_none,
      Dict.get?] at hhas
    simp [Dict.get?, List.lookup_append, hhas]
  · have hne : (other == name) = false := by simpa using hname
    simp [Dict.get?, List.lookup_append, List.lookup_cons, hne]

theorem has_put : (d.put name a).has other = true ↔ other = name ∨ d.has other = true := by
  rw [has_eq_isSome, has_eq_isSome, get?_put_eq]
  split_ifs with h <;> simp [h]

/-- A name gets a value at its place or behind all others. -/
theorem keys_put : (d.put name a).map (·.1) =
    if d.has name = true then d.map (·.1) else d.map (·.1) ++ [name] := by
  unfold Dict.put
  split_ifs
  · rw [List.map_map]
    rfl
  · rw [List.map_append, List.map_singleton]

theorem nodup_put (h : (d.map (·.1)).Nodup) : ((d.put name a).map (·.1)).Nodup := by
  rw [keys_put]
  split_ifs with hhas
  · exact h
  · refine List.nodup_append.mpr ⟨h, by simp, fun k hk k' hk' hkk' => hhas ?_⟩
    rw [List.mem_singleton.mp hk'] at hkk'
    exact has_iff.mpr (List.mem_map.mp (hkk' ▸ hk))

theorem mem_put {x : String × α} (h : x ∈ d.put name a) : x = (name, a) ∨ x ∈ d := by
  unfold Dict.put at h
  split_ifs at h
  · obtain ⟨⟨k, v⟩, hmem, rfl⟩ := List.mem_map.mp h
    by_cases hk : k = name
    · exact Or.inl (by simp [hk])
    · exact Or.inr (by simpa [hk] using hmem)
  · rcases List.mem_append.mp h with h | h
    · exact Or.inr h
    · exact Or.inl (List.mem_singleton.mp h)

end Dict

/-- A library that is looked up has the normal form of the id as its key. -/
theorem Environment.mem_of_library? {env : Environment} {id : String} {l : Library}
    (h : env.library? id = some l) : ∃ normal, ContentId.isId id = true ∧
      ContentId.normalize id = .ok normal ∧ (normal, l) ∈ env.libraries := by
  unfold Environment.library? at h
  split_ifs at h with hid
  split at h
  · rename_i normal hnormal
    exact ⟨normal, hid, hnormal, Dict.mem_of_get? h⟩
  · cases h

namespace Linker

/-! ### The functions -/

section Functions
variable (env : Environment) (s : ContentId.Strategy)

/-- Checks that an environment supports extensions. -/
def supports (mask : Mask) (who : String) : Except Failure Unit :=
  match (mask.diff env.mask).names with
  | .error e => .error (.extension e)
  | .ok missing =>
    if !missing.isEmpty then .error (.link (.unsupported missing (some who))) else .ok ()

/-- The library of a local name, given those of the objects. -/
def libraryAt (inline : String → Except Failure Library) (pinned : Option String) (name : String) :
    Except Failure (Option Library) :=
  match known? env pinned name with
  | some l => .ok (some l)
  | none => if env.objects.has name then some <$> inline name else .ok (env.library? name)

/-- The library that a call of an object needs. -/
def libraryFor (inline : String → Except Failure Library) (o : Object) (name target : String) :
    Except Failure Library := do
  match ← libraryAt env inline (o.libraryId? name) name with
  | none => throw (.link (.undefinedExternal target (.unknownLibrary name (o.libraryId? name))))
  | some l =>
    checkPin (o.libraryId? name) name target l
    supports env l.mask (if l.name.isEmpty then l.id else l.name)
    return l

/-- Fills the field of a call. -/
def fillCall (inline : String → Except Failure Library) (j : Job) (r : Relocation) :
    Except Failure Job :=
  match splitTarget? r.target with
  | none => .error (.internal (.callWithoutLibrary j.object.name r.target))
  | some (name, routine) => do
    let l ← libraryFor env inline j.object name r.target
    match exportOffset? l.exports routine with
    | none => throw (.link (.undefinedExternal r.target (.notExported l.id routine)))
    | some offset => return (← j.resolveCall r l.id offset).2

/-- Fills the fields of all calls. -/
def fillCalls (inline : String → Except Failure Library) (j : Job) : Except Failure Job :=
  (j.object.relocationsOf .externalCall).foldlM (fillCall env inline) j

/-- An object is linked, given the libraries of the objects. -/
def linkFrom (inline : String → Except Failure Library) (o : Object) : Except Failure Library := do
  supports env o.mask o.name
  let j ← (Job.start o).resolveLabels
  let j ← fillCalls env inline j
  let j ← j.resolveData
  j.library s

/-- The object of a name that is not under way is linked. -/
def unlessUnder (stack : List String) (fresh : Object → Except Failure Library) (name : String) :
    Except Failure Library :=
  if name ∈ stack then .error (.link (.cyclic (cycle stack name)))
  else
    match env.objects.get? name with
    | none => .error (.link (.undefinedExternal name (.unknownLibrary name none)))
    | some o => fresh o

/-- An object of the environment is linked while others are under way. -/
def linkUnder : (fuel : Nat) → (stack : List String) → String → Except Failure Library
  | 0, stack, name => unlessUnder env stack
      (fun o => .error (.link (.undefinedExternal o.name (.unknownLibrary o.name none)))) name
  | fuel + 1, stack, name =>
      unlessUnder env stack (linkFrom env s (linkUnder fuel (stack ++ [name]))) name

/-- An object of the environment is linked with a bound on the depth. -/
def linkDeep : (depth : Nat) → String → Except Failure Library
  | 0, name => .error (.link (.undefinedExternal name (.unknownLibrary name none)))
  | depth + 1, name => unlessUnder env [] (linkFrom env s (linkDeep depth)) name

/-- The object calls an object of the environment. -/
def Calls (o : Object) (name : String) : Prop :=
  (∃ r ∈ o.relocations, r.kind = .externalCall ∧
    ∃ routine, splitTarget? r.target = some (name, routine)) ∧
  known? env (o.libraryId? name) name = none ∧ env.objects.has name = true

/-- The object of the first name calls that of the second one. -/
def Needs (name other : String) : Prop := ∃ o, env.objects.get? name = some o ∧ Calls env o other

end Functions

/-! ### What an object calls -/

section Calls
variable {env : Environment} {s : ContentId.Strategy} {f g : String → Except Failure Library}

theorem mem_relocationsOf {o : Object} {kind : RelocationKind} {r : Relocation} :
    r ∈ o.relocationsOf kind ↔ r ∈ o.relocations ∧ r.kind = kind := by
  simp [Object.relocationsOf, List.mem_mergeSort]

theorem known?_eq_some {pinned : Option String} {name : String} {l : Library} :
    known? env pinned name = some l ↔ pinned.bind env.library? = some l ∨
      pinned.bind env.library? = none ∧ (env.aliases.get? name).bind env.library? = some l := by
  rw [known?, Option.orElse_eq_or, Option.or_eq_some_iff]

theorem known?_eq_none {pinned : Option String} {name : String} :
    known? env pinned name = none ↔ pinned.bind env.library? = none ∧
      (env.aliases.get? name).bind env.library? = none := by
  rw [known?, Option.orElse_eq_or, Option.or_eq_none_iff]

/-- The name of the library ends at the first dot of a target. -/
theorem splitTarget?_eq_some {target name routine : String} :
    splitTarget? target = some (name, routine) ↔
      target = name ++ "." ++ routine ∧ '.' ∉ name.toList := by
  unfold splitTarget?
  rw [List.span_eq_takeWhile_dropWhile]
  constructor
  · intro h
    split at h
    · rename_i before c after hsplit
      obtain ⟨hbefore, hrest⟩ := Prod.mk.inj hsplit
      obtain ⟨rfl, rfl⟩ := Prod.mk.inj (Option.some.inj h)
      have hdot : c = '.' := by
        have hhead := List.head?_dropWhile_not (fun d => decide (d ≠ '.')) target.toList
        simpa only [hrest, List.head?_cons, decide_eq_false_iff_not, not_not] using hhead
      have hjoin : before ++ '.' :: after = target.toList := by
        rw [← hdot, ← hbefore, ← hrest, List.takeWhile_append_dropWhile]
      refine ⟨String.toList_inj.mp ?_, fun hmem => ?_⟩
      · simp [String.toList_append, ← hjoin]
      · rw [String.toList_ofList, ← hbefore] at hmem
        simpa using List.all_eq_true.mp List.all_takeWhile '.' hmem
    · cases h
  · rintro ⟨rfl, hname⟩
    have hall : ∀ c ∈ name.toList, decide (c ≠ '.') = true := fun c hc =>
      decide_eq_true fun hdot => hname (hdot ▸ hc)
    have hlist : (name ++ "." ++ routine).toList = name.toList ++ '.' :: routine.toList := by
      simp [String.toList_append]
    rw [hlist, List.takeWhile_append_of_pos hall, List.dropWhile_append_of_pos hall]
    simp

/-- A call that is filled was found among the known libraries or the objects. -/
theorem fillCall_eq_ok {j j' : Job} {r : Relocation} (h : fillCall env f j r = .ok j') :
    ∃ name routine l offset index, splitTarget? r.target = some (name, routine) ∧
      libraryFor env f j.object name r.target = .ok l ∧
      exportOffset? l.exports routine = some offset ∧
      j.resolveCall r l.id offset = .ok (index, j') := by
  unfold fillCall at h
  split at h
  · cases h
  · rename_i name routine hsplit
    obtain ⟨l, hl, h⟩ := Steps.bind_eq_ok.mp h
    split at h
    · cases h
    · rename_i offset hoffset
      obtain ⟨⟨index, j1⟩, hcall, h⟩ := Steps.bind_eq_ok.mp h
      cases h
      exact ⟨name, routine, l, offset, index, hsplit, hl, hoffset, hcall⟩

theorem fillCall_object {j j' : Job} {r : Relocation} (h : fillCall env f j r = .ok j') :
    j'.object = j.object := by
  obtain ⟨_, _, _, _, _, -, -, -, hcall⟩ := fillCall_eq_ok h
  exact (Job.resolveCall_eq_ok hcall).2.2.2.2.2.1.object

/-- The library of a local name depends on the objects only if the object calls one of them. -/
theorem libraryAt_cases (env : Environment) (o : Object) {r : Relocation} {name routine : String}
    (hr : r ∈ o.relocations) (hkind : r.kind = .externalCall)
    (hsplit : splitTarget? r.target = some (name, routine)) :
    (Calls env o name ∧ ∀ f, libraryAt env f (o.libraryId? name) name = some <$> f name) ∨
      ∃ found, ∀ f, libraryAt env f (o.libraryId? name) name = .ok found := by
  rcases hknown : known? env (o.libraryId? name) name with _ | l
  · by_cases hhas : env.objects.has name = true
    · refine Or.inl ⟨⟨⟨r, hr, hkind, routine, hsplit⟩, hknown, hhas⟩, fun f => ?_⟩
      simp [libraryAt, hknown, hhas]
    · exact Or.inr ⟨env.library? name, fun f => by simp [libraryAt, hknown, hhas]⟩
  · exact Or.inr ⟨some l, fun f => by simp [libraryAt, hknown]⟩

theorem libraryFor_mono {o : Object} {r : Relocation} {name routine : String} {l : Library}
    (hr : r ∈ o.relocations) (hkind : r.kind = .externalCall)
    (hsplit : splitTarget? r.target = some (name, routine))
    (hfg : ∀ name', Calls env o name' → ∀ l', f name' = .ok l' → g name' = .ok l')
    (h : libraryFor env f o name r.target = .ok l) : libraryFor env g o name r.target = .ok l := by
  obtain ⟨found, hfound, h⟩ := Steps.bind_eq_ok.mp h
  refine Steps.bind_eq_ok.mpr ⟨found, ?_, h⟩
  rcases libraryAt_cases env o hr hkind hsplit with ⟨hcalls, hat⟩ | ⟨found', hat⟩
  · rw [hat] at hfound ⊢
    obtain ⟨l', hl', rfl⟩ := Steps.map_eq_ok.mp hfound
    rw [hfg name hcalls l' hl']
    rfl
  · rw [hat] at hfound ⊢
    exact hfound

theorem fillCall_mono {j j' : Job} {r : Relocation} (hr : r ∈ j.object.relocations)
    (hkind : r.kind = .externalCall)
    (hfg : ∀ name, Calls env j.object name → ∀ l, f name = .ok l → g name = .ok l)
    (h : fillCall env f j r = .ok j') : fillCall env g j r = .ok j' := by
  obtain ⟨name, routine, l, offset, index, hsplit, hl, hoffset, hcall⟩ := fillCall_eq_ok h
  have hl' := libraryFor_mono hr hkind hsplit hfg hl
  simp [fillCall, hsplit, hl', hoffset, hcall, bind, Except.bind, pure, Except.pure]

theorem resolveAll_object {kind : RelocationKind} {value : Object → String → Except Failure Int}
    {j j' : Job} (h : j.resolveAll kind value = .ok j') : j'.object = j.object := by
  refine Steps.foldlM_induction (fun _ k => k.object = j.object) rfl ?_ h
  intro done r rest k k' _ hk hstep
  exact (Job.resolve_object hstep).trans hk

theorem linkFrom_eq_ok {o : Object} {l : Library} : linkFrom env s f o = .ok l ↔
    supports env o.mask o.name = .ok () ∧ ∃ j1 j2 j3, (Job.start o).resolveLabels = .ok j1 ∧
      fillCalls env f j1 = .ok j2 ∧ j2.resolveData = .ok j3 ∧ j3.library s = .ok l := by
  simp only [linkFrom, Steps.bind_eq_ok]
  constructor
  · rintro ⟨⟨⟩, hmask, j1, h1, j2, h2, j3, h3, h⟩
    exact ⟨hmask, j1, j2, j3, h1, h2, h3, h⟩
  · rintro ⟨hmask, j1, j2, j3, h1, h2, h3, h⟩
    exact ⟨(), hmask, j1, h1, j2, h2, j3, h3, h⟩

/-- **The rounds of one object**: what its steps keep of a job, and what they may fail with, for
any property and any class of failures. -/
theorem linkFrom_rounds {o : Object} {J : Job → Prop} {P : Library → Prop} {E : Failure → Prop}
    (hobject : ∀ j, J j → j.object = o) (hstart : J (Job.start o))
    (hmask : Steps.Yields (fun _ => True) E (supports env o.mask o.name))
    (hlabel : ∀ r ∈ o.relocations, r.kind = .localOffset → ∀ j, J j →
      Steps.Yields J E (j.resolve Object.labelValue r))
    (hcall : ∀ r ∈ o.relocations, r.kind = .externalCall → ∀ j, J j →
      Steps.Yields J E (fillCall env f j r))
    (hdatum : ∀ r ∈ o.relocations, r.kind = .dataAddress → ∀ j, J j →
      Steps.Yields J E (j.resolve Object.datumValue r))
    (hlibrary : ∀ j, J j → Steps.Yields P E (j.library s)) :
    Steps.Yields P E (linkFrom env s f o) := by
  -- One round goes over the relocations of one kind.
  have hround : ∀ {kind : RelocationKind} {step : Job → Relocation → Except Failure Job},
      (∀ r ∈ o.relocations, r.kind = kind → ∀ j, J j → Steps.Yields J E (step j r)) →
      ∀ j, J j → Steps.Yields J E ((j.object.relocationsOf kind).foldlM step j) := by
    intro kind step hstep j hj
    refine Steps.Yields.foldlM hj fun r hr k hk => ?_
    rw [hobject j hj] at hr
    obtain ⟨hmem, hkind⟩ := mem_relocationsOf.mp hr
    exact hstep r hmem hkind k hk
  refine hmask.bind fun _ _ => (hround hlabel _ hstart).bind fun j hj => ?_
  refine (hround hcall j hj).bind fun j hj => (hround hdatum j hj).bind fun j hj => ?_
  exact hlibrary j hj

theorem fillCalls_mono {j j' : Job}
    (hfg : ∀ name, Calls env j.object name → ∀ l, f name = .ok l → g name = .ok l)
    (h : fillCalls env f j = .ok j') : fillCalls env g j = .ok j' := by
  unfold fillCalls at h ⊢
  suffices key : ∀ (rs : List Relocation) (k : Job), k.object = j.object →
      (∀ r ∈ rs, r ∈ j.object.relocations ∧ r.kind = .externalCall) →
      rs.foldlM (fillCall env f) k = .ok j' → rs.foldlM (fillCall env g) k = .ok j' from
    key _ j rfl (fun r hr => mem_relocationsOf.mp hr) h
  intro rs
  induction rs with
  | nil => exact fun _ _ _ h => h
  | cons r rs ih =>
    intro k hk hrs h
    rw [List.foldlM_cons, Steps.bind_eq_ok] at h ⊢
    obtain ⟨k', hk', h⟩ := h
    obtain ⟨hr, hkind⟩ := hrs r List.mem_cons_self
    rw [← hk] at hr hfg
    exact ⟨k', fillCall_mono hr hkind hfg hk', ih k' ((fillCall_object hk').trans hk)
      (fun r' hr' => hrs r' (List.mem_cons_of_mem r hr')) h⟩

/-- Linking only looks at the libraries of the objects that are called. -/
theorem linkFrom_mono {o : Object} {l : Library}
    (hfg : ∀ name, Calls env o name → ∀ l, f name = .ok l → g name = .ok l)
    (h : linkFrom env s f o = .ok l) : linkFrom env s g o = .ok l := by
  obtain ⟨hmask, j1, j2, j3, h1, h2, h3, h⟩ := linkFrom_eq_ok.mp h
  have hobject : j1.object = o := resolveAll_object h1
  rw [← hobject] at hfg
  exact linkFrom_eq_ok.mpr ⟨hmask, j1, j2, j3, h1, fillCalls_mono hfg h2, h3, h⟩

/-- Every object that is called has a library if linking succeeds. -/
theorem exists_of_calls {o : Object} {l : Library} (h : linkFrom env s f o = .ok l) {name : String}
    (hcalls : Calls env o name) : ∃ l', f name = .ok l' := by
  obtain ⟨-, j1, j2, -, h1, h2, -, -⟩ := linkFrom_eq_ok.mp h
  obtain ⟨⟨r, hr, hkind, routine, hsplit⟩, hknown, hhas⟩ := hcalls
  have hobject : j1.object = o := resolveAll_object h1
  have hmem : r ∈ j1.object.relocationsOf .externalCall := by
    rw [hobject]
    exact mem_relocationsOf.mpr ⟨hr, hkind⟩
  obtain ⟨before, after, hsplit'⟩ := List.append_of_mem hmem
  rw [fillCalls, hsplit', Steps.foldlM_append_eq_ok] at h2
  obtain ⟨k, hk, h2⟩ := h2
  rw [List.foldlM_cons, Steps.bind_eq_ok] at h2
  obtain ⟨k', hk', -⟩ := h2
  have hkobject : k.object = o := Steps.foldlM_induction (fun _ k => k.object = o) hobject
    (fun _ _ _ _ _ _ hj hstep => (fillCall_object hstep).trans hj) hk
  obtain ⟨name', routine', l', -, -, hsplit', hl', -, -⟩ := fillCall_eq_ok hk'
  rw [hsplit] at hsplit'
  cases hsplit'
  obtain ⟨found, hfound, -⟩ := Steps.bind_eq_ok.mp hl'
  rw [hkobject] at hfound
  simp only [libraryAt, hknown, hhas, if_true] at hfound
  obtain ⟨l'', hl'', -⟩ := Steps.map_eq_ok.mp hfound
  exact ⟨l'', hl''⟩

end Calls

/-! ### Depth -/

section Depth
variable {env : Environment} {s : ContentId.Strategy}

theorem linkUnder_succ_eq_ok {fuel : Nat} {stack : List String} {name : String} {l : Library}
    (h : linkUnder env s (fuel + 1) stack name = .ok l) : name ∉ stack ∧
      ∃ o, env.objects.get? name = some o ∧
        linkFrom env s (linkUnder env s fuel (stack ++ [name])) o = .ok l := by
  rw [linkUnder, unlessUnder] at h
  split_ifs at h with hstack
  split at h
  · cases h
  · rename_i o ho
    exact ⟨hstack, o, ho, h⟩

theorem not_linkUnder_zero {stack : List String} {name : String} {l : Library} :
    linkUnder env s 0 stack name ≠ .ok l := by
  intro h
  simp only [linkUnder, unlessUnder] at h
  split_ifs at h
  split at h <;> cases h

theorem linkDeep_eq_ok {depth : Nat} {name : String} {l : Library}
    (h : linkDeep env s depth name = .ok l) : ∃ depth' o, depth = depth' + 1 ∧
      env.objects.get? name = some o ∧ linkFrom env s (linkDeep env s depth') o = .ok l := by
  rcases depth with _ | depth
  · cases h
  · rw [linkDeep, unlessUnder, if_neg (by simp)] at h
    split at h
    · cases h
    · rename_i o ho
      exact ⟨depth, o, rfl, ho, h⟩

/-- What is linked while others are under way has a finite depth. -/
theorem linkDeep_of_linkUnder : ∀ {fuel : Nat} {stack : List String} {name : String} {l : Library},
    linkUnder env s fuel stack name = .ok l → linkDeep env s fuel name = .ok l
  | 0, _, _, _, h => absurd h not_linkUnder_zero
  | fuel + 1, stack, name, l, h => by
    obtain ⟨-, o, ho, h⟩ := linkUnder_succ_eq_ok h
    rw [linkDeep, unlessUnder, if_neg (by simp), ho]
    exact linkFrom_mono (fun _ _ _ => linkDeep_of_linkUnder) h

theorem exists_of_needs {depth : Nat} {name other : String} {l : Library}
    (h : linkDeep env s depth name = .ok l) (hneeds : Needs env name other) :
    ∃ depth' < depth, ∃ l', linkDeep env s depth' other = .ok l' := by
  obtain ⟨depth', o, rfl, ho, h⟩ := linkDeep_eq_ok h
  obtain ⟨o', ho', hcalls⟩ := hneeds
  cases ho.symm.trans ho'
  exact ⟨depth', Nat.lt_succ_self _, exists_of_calls h hcalls⟩

theorem exists_of_transGen {name other : String}
    (hneeds : Relation.TransGen (Needs env) name other) :
    ∀ {depth : Nat} {l : Library}, linkDeep env s depth name = .ok l →
      ∃ depth' < depth, ∃ l', linkDeep env s depth' other = .ok l' := by
  induction hneeds with
  | single hneeds => exact fun h => exists_of_needs h hneeds
  | tail _ hneeds ih =>
    intro depth l h
    obtain ⟨depth', hlt, l', h'⟩ := ih h
    obtain ⟨depth'', hlt', h''⟩ := exists_of_needs h' hneeds
    exact ⟨depth'', Nat.lt_trans hlt' hlt, h''⟩

/-- An object of finite depth does not need itself. -/
theorem not_needs_self {name : String} : ∀ {depth : Nat} {l : Library},
    linkDeep env s depth name = .ok l → ¬ Relation.TransGen (Needs env) name name := by
  intro depth
  induction depth using Nat.strongRecOn with
  | ind depth ih =>
    intro l h hneeds
    obtain ⟨depth', hlt, l', h'⟩ := exists_of_transGen hneeds h
    exact ih depth' hlt h' hneeds

/-- A stack on the way to a name: its objects are different ones, and each of them needs the
name. -/
structure Toward (env : Environment) (stack : List String) (name : String) : Prop where
  nodup : stack.Nodup
  objects : ∀ a ∈ stack, env.objects.has a = true
  needs : ∀ a ∈ stack, Relation.TransGen (Needs env) a name

theorem Toward.nil (env : Environment) (name : String) : Toward env [] name :=
  ⟨.nil, by simp, by simp⟩

theorem Toward.push {stack : List String} {name other : String} {o : Object}
    (h : Toward env stack name) (hnew : name ∉ stack) (ho : env.objects.get? name = some o)
    (hcalls : Calls env o other) : Toward env (stack ++ [name]) other where
  nodup := by
    refine List.nodup_append.mpr ⟨h.nodup, by simp, fun a ha b hb hab => hnew ?_⟩
    rw [← List.mem_singleton.mp hb, ← hab]
    exact ha
  objects a ha := by
    rcases List.mem_append.mp ha with ha | ha
    · exact h.objects a ha
    · rw [List.mem_singleton.mp ha]
      exact Dict.has_of_get? ho
  needs a ha := by
    rcases List.mem_append.mp ha with ha | ha
    · exact (h.needs a ha).tail ⟨o, ho, hcalls⟩
    · rw [List.mem_singleton.mp ha]
      exact .single ⟨o, ho, hcalls⟩

/-- Objects that are under way leave room for another one. -/
theorem Toward.length_lt {stack : List String} {name : String} {o : Object}
    (h : Toward env stack name) (hnew : name ∉ stack) (ho : env.objects.get? name = some o) :
    stack.length < env.objects.length := by
  have hsub : name :: stack ⊆ env.objects.map Prod.fst := by
    intro a ha
    have hhas : env.objects.has a = true := by
      rcases List.mem_cons.mp ha with rfl | ha
      · exact Dict.has_of_get? ho
      · exact h.objects a ha
    obtain ⟨x, hx, hxa⟩ := List.any_eq_true.mp hhas
    exact List.mem_map.mpr ⟨x, hx, by simpa using hxa⟩
  have hlen := ((List.nodup_cons.mpr ⟨hnew, h.nodup⟩).subperm hsub).length_le
  rwa [List.length_map] at hlen

/-- **What has a finite depth is linked on the way to it**, whatever is under way: if an object on
the stack were needed, it would need itself. -/
theorem linkUnder_of_linkDeep : ∀ {depth fuel : Nat} {stack : List String} {name : String}
    {l : Library}, Toward env stack name → env.objects.length ≤ fuel + stack.length →
    linkDeep env s depth name = .ok l → linkUnder env s fuel stack name = .ok l := by
  intro depth
  induction depth with
  | zero => exact fun _ _ h => by cases h
  | succ depth ih =>
    intro fuel stack name l htoward hfuel h
    have hnew : name ∉ stack := fun hmem => not_needs_self h (htoward.needs name hmem)
    obtain ⟨depth', o, hdepth, ho, hfrom⟩ := linkDeep_eq_ok h
    cases hdepth
    have hlt := htoward.length_lt hnew ho
    obtain ⟨fuel, rfl⟩ : ∃ fuel', fuel = fuel' + 1 := ⟨fuel - 1, by omega⟩
    rw [linkUnder, unlessUnder, if_neg hnew, ho]
    refine linkFrom_mono (fun other hcalls l' hl' => ?_) hfrom
    refine ih (htoward.push hnew ho hcalls) ?_ hl'
    rw [List.length_append, List.length_singleton]
    omega

end Depth

/-! ### Computations with a memory -/

/-- From every state of an invariant the computation gives one result and keeps the invariant. -/
def Acts {α : Type} (P : Linker → Prop) (m : LinkM α) (x : Except Failure α) : Prop :=
  ∀ l, P l → (m.run l).1 = x ∧ P (m.run l).2

section Acts
variable {α β : Type} {P : Linker → Prop}

theorem run_bind (m : LinkM α) (k : α → LinkM β) (l : Linker) : (m >>= k).run l =
    match m.run l with
    | (.ok a, l') => (k a).run l'
    | (.error e, l') => (.error e, l') := by
  show (ExceptT.bind m k).run l = _
  simp only [ExceptT.bind, ExceptT.mk, ExceptT.run, bind, StateT.bind]
  rcases m l with ⟨_ | a, l'⟩ <;> rfl

theorem Acts.bind {m : LinkM α} {k : α → LinkM β} {x : Except Failure α}
    {g : α → Except Failure β} (hm : Acts P m x) (hk : ∀ a, x = .ok a → Acts P (k a) (g a)) :
    Acts P (m >>= k) (x >>= g) := by
  intro l hl
  obtain ⟨hx, hl'⟩ := hm l hl
  rw [run_bind]
  rcases hrun : m.run l with ⟨e | a, l'⟩
  · rw [hrun] at hx hl'
    rw [← hx]
    exact ⟨rfl, hl'⟩
  · rw [hrun] at hx hl'
    rw [← hx]
    exact hk a hx.symm l' hl'

theorem acts_pure (a : α) : Acts P (pure a : LinkM α) (.ok a) := fun _ hl => ⟨rfl, hl⟩

theorem acts_throw (e : Failure) : Acts P (throw e : LinkM α) (.error e) := fun _ hl => ⟨rfl, hl⟩

theorem acts_lift (x : Except Failure α) : Acts P (lift x) x := by
  cases x
  · exact acts_throw _
  · exact acts_pure _

theorem acts_get {k : Linker → LinkM α} {x : Except Failure α} (h : ∀ l, P l → Acts P (k l) x) :
    Acts P (get >>= k) x := fun l hl => h l hl l hl

theorem acts_foldlM {σ : Type} {F : σ → α → LinkM σ} {G : σ → α → Except Failure σ}
    (Q : σ → Prop) : ∀ {xs : List α} {t : σ}, Q t →
    (∀ x ∈ xs, ∀ t, Q t → Acts P (F t x) (G t x) ∧ ∀ t', G t x = .ok t' → Q t') →
    Acts P (xs.foldlM F t) (xs.foldlM G t)
  | [], t, _, _ => acts_pure t
  | x :: xs, t, ht, h => by
    obtain ⟨hx, hnext⟩ := h x List.mem_cons_self t ht
    rw [List.foldlM_cons, List.foldlM_cons]
    exact hx.bind fun t' ht' => acts_foldlM Q (hnext t' ht') fun x' hx' =>
      h x' (List.mem_cons_of_mem x hx')

/-- What happened is no part of the invariant. -/
def Eventless (P : Linker → Prop) : Prop :=
  ∀ l event, P l → P { l with events := event :: l.events }

theorem acts_record (hP : Eventless P) (event : LinkEvent) : Acts P (record event) (.ok ()) :=
  fun l hl => ⟨rfl, hP l event hl⟩

theorem run_step (object : String) (state : JobState) (m : LinkM α) (l : Linker) :
    (step object state m).run l = match m.run l with
      | (.ok a, l') => (.ok a, l')
      | (.error e, l') => ((do
          if e.diagnostic?.isSome then record (.advanced object state .failed)
          throw e : LinkM α)).run l' := by
  show (ExceptT.tryCatch m _).run l = _
  simp only [ExceptT.tryCatch, ExceptT.mk, ExceptT.run, bind, StateT.bind]
  rcases m l with ⟨_ | a, l'⟩ <;> rfl

theorem acts_step (hP : Eventless P) {m : LinkM α} {x : Except Failure α} (hm : Acts P m x)
    (object : String) (state : JobState) : Acts P (step object state m) x := by
  intro l hl
  obtain ⟨hx, hl'⟩ := hm l hl
  rw [run_step]
  rcases hres : m.run l with ⟨e | a, l'⟩
  · rw [hres] at hx hl'
    rw [← hx]
    have hfail : Acts P (do
        if e.diagnostic?.isSome then Linker.record (.advanced object state .failed)
        throw e : LinkM α) (.error e) := by
      split_ifs
      · exact (acts_record hP _).bind fun _ _ => acts_throw e
      · exact acts_throw e
    exact hfail l' hl'
  · rw [hres] at hx hl'
    exact ⟨hx, hl'⟩

end Acts

/-! ### The linker -/

/-- The state of a linker while some objects are under way: everything that it remembers has a
finite depth. -/
structure Ready (env : Environment) (s : ContentId.Strategy) (stack : List String) (l : Linker) :
    Prop where
  env_eq : l.env = env
  strategy_eq : l.strategy = s
  stack_eq : l.stack = stack
  linked : ∀ x ∈ l.linked, ∃ depth, linkDeep env s depth x.1 = .ok x.2

section Linker
variable {env : Environment} {s : ContentId.Strategy} {stack : List String}
  {inline : String → LinkM Library} {f : String → Except Failure Library}

theorem ready_eventless : Eventless (Ready env s stack) :=
  fun _ _ h => ⟨h.env_eq, h.strategy_eq, h.stack_eq, h.linked⟩

theorem checkMask_acts (mask : Mask) (who : String) :
    Acts (Ready env s stack) (checkMask mask who) (supports env mask who) := by
  refine acts_get fun l hl => ?_
  rw [hl.env_eq, supports]
  rcases (mask.diff env.mask).names with e | missing
  · exact acts_throw _
  · by_cases hmissing : missing.isEmpty = true <;> simp only [hmissing]
    · exact acts_pure _
    · exact acts_throw _

theorem findLibrary_acts {pinned : Option String} {name : String}
    (h : known? env pinned name = none → env.objects.has name = true →
      Acts (Ready env s stack) (inline name) (f name)) :
    Acts (Ready env s stack) (findLibrary inline pinned name) (libraryAt env f pinned name) := by
  refine acts_get fun l hl => ?_
  simp only [hl.env_eq, libraryAt]
  rcases hknown : known? env pinned name with _ | known
  · by_cases hhas : env.objects.has name = true
    · simp only [hhas, if_true]
      rw [map_eq_pure_bind]
      exact (h hknown hhas).bind fun l _ => acts_pure _
    · simp only [hhas]
      exact acts_pure _
  · exact acts_pure _

theorem resolveLibrary_acts {o : Object} {name target : String}
    (h : known? env (o.libraryId? name) name = none → env.objects.has name = true →
      Acts (Ready env s stack) (inline name) (f name)) :
    Acts (Ready env s stack) (resolveLibrary inline o name target)
      (libraryFor env f o name target) := by
  refine (findLibrary_acts h).bind fun found _ => ?_
  rcases found with _ | l
  · exact acts_throw _
  · exact (acts_lift _).bind fun _ _ => (checkMask_acts _ _).bind fun _ _ => acts_pure _

theorem resolveCall_acts {j : Job} {r : Relocation} (hr : r ∈ j.object.relocations)
    (hkind : r.kind = .externalCall)
    (h : ∀ name, Calls env j.object name → Acts (Ready env s stack) (inline name) (f name)) :
    Acts (Ready env s stack) (resolveCall inline j r) (fillCall env f j r) := by
  unfold resolveCall fillCall
  rcases hsplit : splitTarget? r.target with _ | ⟨name, routine⟩
  · exact acts_throw _
  · refine (resolveLibrary_acts fun hknown hhas =>
      h name ⟨⟨r, hr, hkind, routine, hsplit⟩, hknown, hhas⟩).bind fun l _ => ?_
    rcases exportOffset? l.exports routine with _ | offset
    · exact acts_throw _
    · refine (acts_lift _).bind fun _ _ => ?_
      exact (acts_record ready_eventless _).bind fun _ _ => acts_pure _

theorem resolveCalls_acts {j : Job}
    (h : ∀ name, Calls env j.object name → Acts (Ready env s stack) (inline name) (f name)) :
    Acts (Ready env s stack) (resolveCalls inline j) (fillCalls env f j) := by
  refine acts_foldlM (fun k => k.object = j.object) rfl fun r hr k hk => ?_
  obtain ⟨hmem, hkind⟩ := mem_relocationsOf.mp hr
  rw [← hk] at hmem h
  exact ⟨resolveCall_acts hmem hkind h, fun k' hk' => (fillCall_object hk').trans hk⟩

/-- **Linking an object** acts as `linkFrom`, if linking the objects that it calls acts as a
function. -/
theorem linkWith_acts {o : Object}
    (h : ∀ name, Calls env o name → Acts (Ready env s stack) (inline name) (f name)) :
    Acts (Ready env s stack) (linkWith inline o) (linkFrom env s f o) := by
  have hlabels : Acts (Ready env s stack)
      (step o.name .unlinked do
        checkMask o.mask o.name
        lift (Job.start o).resolveLabels)
      (supports env o.mask o.name >>= fun _ => (Job.start o).resolveLabels) :=
    acts_step ready_eventless ((checkMask_acts _ _).bind fun _ _ => acts_lift _) _ _
  have hfields : ∀ j, j.object = o → Acts (Ready env s stack)
      (step o.name .partiallyResolved do
        let j ← resolveCalls inline j
        lift j.resolveData)
      (fillCalls env f j >>= fun j => j.resolveData) := fun j hj =>
    acts_step ready_eventless ((resolveCalls_acts (by rwa [hj])).bind fun _ _ => acts_lift _) _ _
  have hlibrary : ∀ j : Job, Acts (Ready env s stack)
      (step o.name .resolved do lift (j.library (← get).strategy)) (j.library s) := fun j =>
    acts_step ready_eventless (acts_get fun l hl => by rw [hl.strategy_eq]; exact acts_lift _) _ _
  have hacts : Acts (Ready env s stack) (linkWith inline o)
      ((supports env o.mask o.name >>= fun _ => (Job.start o).resolveLabels) >>= fun j =>
        pure () >>= fun _ => (fillCalls env f j >>= fun j => j.resolveData) >>= fun j =>
          pure () >>= fun _ => j.library s >>= fun l => pure () >>= fun _ => pure () >>= fun _ =>
            pure l) := by
    refine hlabels.bind fun j hj => (acts_record ready_eventless _).bind fun _ _ => ?_
    have hobject : j.object = o := by
      obtain ⟨_, -, hj⟩ := Steps.bind_eq_ok.mp hj
      exact resolveAll_object hj
    refine (hfields j hobject).bind fun j _ => (acts_record ready_eventless _).bind fun _ _ => ?_
    refine (hlibrary j).bind fun l _ => (acts_record ready_eventless _).bind fun _ _ => ?_
    exact (acts_record ready_eventless _).bind fun _ _ => acts_pure _
  simpa only [linkFrom, pure_bind, bind_assoc, bind_pure] using hacts

theorem run_tryFinally {α : Type} (m : LinkM α) (g : Linker → Linker) (l : Linker) :
    (tryFinally m (modify g)).run l = ((m.run l).1, g (m.run l).2) := by
  rcases hm : m.run l with ⟨e | a, l'⟩ <;>
    simp only [tryFinally, tryFinally', ExceptT.run, ExceptT.mk, bind, StateT.bind, Functor.map,
      ExceptT.map] at hm ⊢ <;>
    rw [hm] <;> rfl

/-- An object that is linked while its name is on the stack, and remembered if that succeeds. -/
theorem run_remembering (m : LinkM Library) (name : String) (l : Linker) :
    (do
      modify fun l => { l with stack := l.stack ++ [name] }
      let library ← tryFinally m (modify fun l => { l with stack := l.stack.dropLast })
      modify fun l => { l with linked := l.linked.put name library }
      return library : LinkM Library).run l =
    match m.run { l with stack := l.stack ++ [name] } with
    | (.ok a, l') =>
      (.ok a, { l' with stack := l'.stack.dropLast, linked := l'.linked.put name a })
    | (.error e, l') => (.error e, { l' with stack := l'.stack.dropLast }) := by
  rw [run_bind]
  change (tryFinally m (modify fun l : Linker => { l with stack := l.stack.dropLast }) >>= _).run
    { l with stack := l.stack ++ [name] } = _
  rw [run_bind, run_tryFinally]
  rcases m.run { l with stack := l.stack ++ [name] } with ⟨e | a, l'⟩ <;> rfl

theorem linkOnce_acts {fresh : Object → LinkM Library} {g : Object → Except Failure Library}
    {name : String} {fuel : Nat} (htoward : Toward env stack name)
    (hfuel : env.objects.length ≤ fuel + stack.length)
    (hunder : linkUnder env s fuel stack name = unlessUnder env stack g name)
    (hfresh : ∀ o, name ∉ stack → env.objects.get? name = some o →
      Acts (Ready env s (stack ++ [name])) (fresh o) (g o)) :
    Acts (Ready env s stack) (linkOnce fresh name) (linkUnder env s fuel stack name) := by
  have hdeep : ∀ library, linkUnder env s fuel stack name = .ok library →
      ∃ depth, linkDeep env s depth name = .ok library :=
    fun _ h => ⟨fuel, linkDeep_of_linkUnder h⟩
  refine acts_get fun l hl => ?_
  rcases hmemo : l.linked.get? name with _ | library
  · simp only [hl.stack_eq, hl.env_eq]
    by_cases hstack : name ∈ stack
    · simp only [hstack, if_true, hunder, unlessUnder]
      exact acts_throw _
    · rcases ho : env.objects.get? name with _ | o
      · simp only [hstack, if_false, hunder, unlessUnder, ho]
        exact acts_throw _
      · have hg : linkUnder env s fuel stack name = g o := by
          rw [hunder, unlessUnder, if_neg hstack, ho]
        simp only [hstack, if_false, hg]
        rw [hg] at hdeep
        intro l hl
        have hpush : Ready env s (stack ++ [name]) { l with stack := l.stack ++ [name] } :=
          ⟨hl.env_eq, hl.strategy_eq, by rw [hl.stack_eq], hl.linked⟩
        obtain ⟨hresult, hafter⟩ := hfresh o hstack ho _ hpush
        have hpop : ∀ l' : Linker, Ready env s (stack ++ [name]) l' →
            Ready env s stack { l' with stack := l'.stack.dropLast } := fun l' hl' =>
          ⟨hl'.env_eq, hl'.strategy_eq, by simp [hl'.stack_eq], hl'.linked⟩
        rw [run_remembering]
        rcases hrun : (fresh o).run { l with stack := l.stack ++ [name] } with ⟨e | library, l'⟩
        · rw [hrun] at hresult hafter
          exact ⟨hresult, hpop l' hafter⟩
        · rw [hrun] at hresult hafter
          refine ⟨hresult, (hpop l' hafter).env_eq, (hpop l' hafter).strategy_eq,
            (hpop l' hafter).stack_eq, fun x hx => ?_⟩
          rcases Dict.mem_put hx with rfl | hx
          · exact hdeep _ hresult.symm
          · exact hafter.linked x hx
  · obtain ⟨depth, hdepth⟩ := hl.linked _ (Dict.mem_of_get? hmemo)
    rw [linkUnder_of_linkDeep htoward hfuel hdepth]
    exact acts_pure _

/-- An object of the environment is linked, or found linked, with a number of levels of recursion
and any other computation below them. -/
def nested (below : Object → LinkM Library) : (depth : Nat) → String → LinkM Library
  | 0 => linkOnce below
  | depth + 1 => linkOnce (linkWith (nested below depth))

theorem linkInline_eq_nested : ∀ fuel, linkInline fuel = nested
    (fun o => throw (.link (.undefinedExternal o.name (.unknownLibrary o.name none)))) fuel
  | 0 => rfl
  | fuel + 1 => by rw [linkInline, linkInline_eq_nested fuel, nested]

/-- **The linker forgets nothing and confuses nothing**: an object of the environment has the
library that it has without a memory. A level for each object that is not under way is enough, so
that it does not matter what stands below. -/
theorem nested_acts {below : Object → LinkM Library} {depth fuel : Nat} {stack : List String}
    {name : String} (htoward : Toward env stack name)
    (hdepth : env.objects.length ≤ depth + stack.length)
    (hfuel : env.objects.length ≤ fuel + stack.length) :
    Acts (Ready env s stack) (nested below depth name) (linkUnder env s fuel stack name) := by
  induction depth generalizing fuel stack name with
  | zero =>
    -- Every object is under way, so that nothing is linked afresh.
    cases fuel <;>
      exact linkOnce_acts htoward hfuel rfl fun _ hnew ho =>
        absurd (htoward.length_lt hnew ho) (by omega)
  | succ depth ih =>
    cases fuel with
    | zero =>
      exact linkOnce_acts htoward hfuel rfl fun _ hnew ho =>
        absurd (htoward.length_lt hnew ho) (by omega)
    | succ fuel =>
      refine linkOnce_acts htoward hfuel rfl fun o hnew ho => linkWith_acts fun other hcalls => ?_
      have hlength : (stack ++ [name]).length = stack.length + 1 := by simp
      exact ih (htoward.push hnew ho hcalls) (by omega) (by omega)

theorem linkWith_nested_acts (below : Object → LinkM Library) {depth : Nat}
    (hdepth : env.objects.length ≤ depth) (o : Object) :
    Acts (Ready env s []) (linkWith (nested below depth) o)
      (linkFrom env s (linkUnder env s env.objects.length []) o) :=
  linkWith_acts fun name _ => nested_acts (.nil env name) hdepth (Nat.le_refl _)

/-- Linking an object acts as a function. -/
theorem link_acts (o : Object) : Acts (Ready env s []) (link o)
    (linkFrom env s (linkUnder env s env.objects.length []) o) := by
  refine acts_get fun l hl => ?_
  rw [hl.env_eq, linkInline_eq_nested]
  exact linkWith_nested_acts _ (Nat.le_refl _) o

theorem ready_new (env : Environment) (s : ContentId.Strategy) :
    Ready env s [] { env, strategy := s } :=
  ⟨rfl, rfl, rfl, by simp⟩

end Linker

end Linker

section Main
variable {env : Environment} {s : ContentId.Strategy}

/-- **Linking an object** without a memory. -/
theorem linkObject_eq (o : Object) : linkObject o env s =
    Linker.linkFrom env s (Linker.linkUnder env s env.objects.length []) o :=
  (Linker.link_acts o _ (Linker.ready_new env s)).1

/-- An object of finite depth has the library that it gives on its own. -/
theorem linkObject_of_linkDeep {depth : Nat} {name : String} {l : Library}
    (h : Linker.linkDeep env s depth name = .ok l) :
    ∃ o, env.objects.get? name = some o ∧ linkObject o env s = .ok l := by
  obtain ⟨depth, o, -, ho, hfrom⟩ := Linker.linkDeep_eq_ok h
  refine ⟨o, ho, ?_⟩
  rw [linkObject_eq]
  exact Linker.linkFrom_mono (fun other _ l' hl' =>
    Linker.linkUnder_of_linkDeep (.nil env other) (Nat.le_add_right _ _) hl') hfrom

/-- **The library of an object of the environment** is the one that it gives on its own. -/
theorem linkObject_of_linkUnder {name : String} {l : Library}
    (h : Linker.linkUnder env s env.objects.length [] name = .ok l) :
    ∃ o, env.objects.get? name = some o ∧ linkObject o env s = .ok l :=
  linkObject_of_linkDeep (Linker.linkDeep_of_linkUnder h)

end Main

end AluVM
