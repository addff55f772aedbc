import AluVM.Proofs.LinkedFiles
import AluVM.Proofs.Recursion

/-! # What the linker sees of an environment

A call reads of its library the id, the extensions, the name and the places of its routines: its
face (`Library.face`). Environments that show the same faces under the same names are the same to
the linker (`Linker.linkFrom_congr`). There are two uses of this:

* `linkObject_prebuilt`: an object of an environment may be linked beforehand, and its library
  stand under its name, if nothing refers to the id of this library in any of its spellings
  (`linkObject_prebuilt_of_capitals`);
* `linkObject_perm`: libraries may be given to an environment in any order, as long as libraries
  with one id have one face. Without that the last one of an id wins
  (`linkObject_of_shared_id`). -/

namespace AluVM

open Linker

/-! ### Dictionaries -/

namespace Dict

variable {α : Type} {d : Dict α} {name other : String}

/-- Without one name, the other ones keep their values. -/
theorem get?_filter_ne (h : other ≠ name) :
    Dict.get? (d.filter fun x => x.1 ≠ name) other = d.get? other := by
  induction d with
  | nil => rfl
  | cons x d ih =>
    obtain ⟨k, v⟩ := x
    rw [Dict.get?, Dict.get?] at ih ⊢
    by_cases hk : k = name
    · have hne : (other == k) = false := by simpa [hk] using h
      rw [List.filter_cons_of_neg (by simpa using hk), ih, List.lookup_cons, hne]
    · rw [List.filter_cons_of_pos (by simpa using hk), List.lookup_cons, List.lookup_cons, ih]

end Dict

/-! ### Faces -/

/-- What a call reads of its library. -/
structure Library.Face where
  id : String
  mask : Mask
  name : String
  offset? : String → Option Int

/-- What a call reads of this library. -/
def Library.face (l : Library) : Library.Face := ⟨l.id, l.mask, l.name, exportOffset? l.exports⟩

namespace Linker

section Congr
variable {env env' : Environment} {f f' : String → Except Failure Library}

/-- The face of the library of a local name, given the libraries of the objects. -/
def faceAt (env : Environment) (f : String → Except Failure Library) (pinned : Option String)
    (name : String) : Except Failure (Option Library.Face) :=
  Option.map Library.face <$> libraryAt env f pinned name

theorem supports_congr (hmask : env'.mask = env.mask) (mask : Mask) (who : String) :
    supports env' mask who = supports env mask who := by
  rw [supports, supports, hmask]

theorem checkPin_congr {l l' : Library} (h : l'.id = l.id) (pinned : Option String)
    (name target : String) : checkPin pinned name target l' = checkPin pinned name target l := by
  unfold checkPin
  rw [h]

/-- A call finds a library of the same face, or fails in the same way. -/
theorem libraryFor_congr (hmask : env'.mask = env.mask) {o : Object} {name : String}
    (h : faceAt env' f' (o.libraryId? name) name = faceAt env f (o.libraryId? name) name)
    (target : String) : Library.face <$> libraryFor env' f' o name target =
      Library.face <$> libraryFor env f o name target := by
  unfold faceAt at h
  unfold libraryFor
  generalize libraryAt env' f' (o.libraryId? name) name = found' at h ⊢
  generalize libraryAt env f (o.libraryId? name) name = found at h ⊢
  rcases found' with e' | _ | l' <;> rcases found with e | _ | l <;>
    simp only [Functor.map, Except.map, Option.map_none, Option.map_some, reduceCtorEq,
      Except.ok.injEq, Except.error.injEq, Option.some.injEq] at h
  · subst h
    rfl
  · rfl
  · obtain ⟨hid, hlmask, hname, -⟩ := Library.Face.mk.inj h
    have hwho : (if l'.name.isEmpty then l'.id else l'.name) =
        if l.name.isEmpty then l.id else l.name := by rw [hid, hname]
    simp only [bind, Except.bind, checkPin_congr hid, hwho, hlmask, supports_congr hmask]
    rcases checkPin (o.libraryId? name) name target l with e | _
    · rfl
    · rcases supports env l.mask (if l.name.isEmpty then l.id else l.name) with e | _
      · rfl
      · exact congrArg Except.ok h

/-- Filling the field of a call reads the face of its library alone. -/
theorem fillCall_eq_face (env : Environment) (f : String → Except Failure Library) (j : Job)
    (r : Relocation) : fillCall env f j r = match splitTarget? r.target with
      | none => .error (.internal (.callWithoutLibrary j.object.name r.target))
      | some (name, routine) => do
        let face ← Library.face <$> libraryFor env f j.object name r.target
        match face.offset? routine with
        | none => throw (.link (.undefinedExternal r.target (.notExported face.id routine)))
        | some offset => return (← j.resolveCall r face.id offset).2 := by
  unfold fillCall
  rcases splitTarget? r.target with _ | ⟨name, routine⟩
  · rfl
  · show _ = Library.face <$> libraryFor env f j.object name r.target >>= _
    rw [bind_map_left]
    rfl

theorem fillCall_congr (hmask : env'.mask = env.mask) {j : Job} {r : Relocation}
    (h : ∀ name routine, splitTarget? r.target = some (name, routine) →
      faceAt env' f' (j.object.libraryId? name) name =
        faceAt env f (j.object.libraryId? name) name) :
    fillCall env' f' j r = fillCall env f j r := by
  rw [fillCall_eq_face, fillCall_eq_face]
  rcases hsplit : splitTarget? r.target with _ | ⟨name, routine⟩
  · rfl
  · simp only [libraryFor_congr hmask (h name routine hsplit)]

/-- The calls of an object find the same faces in both environments. -/
def SameFaces (env : Environment) (f : String → Except Failure Library) (env' : Environment)
    (f' : String → Except Failure Library) (o : Object) : Prop :=
  ∀ r ∈ o.relocations, r.kind = .externalCall → ∀ name routine,
    splitTarget? r.target = some (name, routine) →
      faceAt env' f' (o.libraryId? name) name = faceAt env f (o.libraryId? name) name

theorem fillCalls_congr (hmask : env'.mask = env.mask) {j : Job}
    (h : SameFaces env f env' f' j.object) : fillCalls env' f' j = fillCalls env f j := by
  unfold fillCalls
  refine Steps.foldlM_congr (fun k => k.object = j.object) rfl fun r hr k hk => ?_
  obtain ⟨hmem, hkind⟩ := mem_relocationsOf.mp hr
  refine ⟨fillCall_congr hmask fun name routine hsplit => ?_, fun k' hk' => ?_⟩
  · rw [hk]
    exact h r hmem hkind name routine hsplit
  · exact (fillCall_object hk').trans hk

/-- **Environments that show an object the same faces are the same to it.** -/
theorem linkFrom_congr (s : ContentId.Strategy) (hmask : env'.mask = env.mask) {o : Object}
    (h : SameFaces env f env' f' o) : linkFrom env' s f' o = linkFrom env s f o := by
  unfold linkFrom
  rw [supports_congr hmask]
  rcases hlabels : (Job.start o).resolveLabels with e | j
  · rfl
  · have hobject : j.object = o := resolveAll_object hlabels
    simp only [bind, Except.bind, fillCalls_congr hmask (hobject ▸ h)]

end Congr

/-! ### Fuel -/

/-- Any fuel is enough that has a unit for each object that is not under way. -/
theorem linkUnder_fuel {env : Environment} {s : ContentId.Strategy} {fuel fuel' : Nat}
    {stack : List String} {name : String} (htoward : Toward env stack name)
    (h : env.objects.length ≤ fuel + stack.length)
    (h' : env.objects.length ≤ fuel' + stack.length) :
    linkUnder env s fuel stack name = linkUnder env s fuel' stack name := by
  have hready : Ready env s stack { env, strategy := s, stack } :=
    ⟨rfl, rfl, rfl, by simp⟩
  -- The linker acts as both of them.
  have hacts : ∀ k, env.objects.length ≤ k + stack.length →
      ((nested (fun _ => throw (.internal (.callWithoutLibrary "" ""))) fuel name).run
        { env, strategy := s, stack }).1 = linkUnder env s k stack name :=
    fun k hk => (nested_acts htoward h hk _ hready).1
  rw [← hacts fuel h, ← hacts fuel' h']

end Linker

section Prebuilt
variable {env : Environment} {s : ContentId.Strategy}

theorem linkObject_eq_of_le {fuel : Nat} (hfuel : env.objects.length ≤ fuel) (o : Object) :
    linkObject o env s = linkFrom env s (linkUnder env s fuel []) o := by
  have hsame : linkUnder env s env.objects.length [] = linkUnder env s fuel [] := by
    funext name
    exact linkUnder_fuel (.nil env name) (Nat.le_add_right _ _) hfuel
  rw [linkObject_eq, hsame]

/-- What an object of the environment gives on its own has a finite depth. -/
theorem linkDeep_of_linkObject {name : String} {d : Object} {l : Library}
    (hd : env.objects.get? name = some d) (h : linkObject d env s = .ok l) :
    linkDeep env s (env.objects.length + 1) name = .ok l := by
  rw [linkObject_eq] at h
  rw [linkDeep, unlessUnder, if_neg (by simp), hd]
  exact linkFrom_mono (fun _ _ _ => linkDeep_of_linkUnder) h


end Prebuilt

/-! ### Objects that are linked beforehand -/

theorem ContentId.Canonical.isId {id : String} (h : Canonical id) : isId id = true := by
  obtain ⟨s, hs, digest, hdigest, rfl⟩ := h
  rw [ContentId.isId, split?_canonical hs hdigest]
  simp only [Strategy.known, List.mem_cons, List.not_mem_nil, or_false] at hs
  rcases hs with rfl | rfl <;> rfl

/-- The text is the id, in any of its spellings. -/
def ContentId.Denotes (text id : String) : Prop := normalize text = .ok id

/-- No call of the object names a library by this id, nor by a local name that it fixes to it. -/
def Object.Avoids (o : Object) (id : String) : Prop :=
  ∀ r ∈ o.relocations, r.kind = .externalCall → ∀ name routine,
    splitTarget? r.target = some (name, routine) → ¬ ContentId.Denotes name id ∧
      ∀ pinned, o.libraryId? name = some pinned → ¬ ContentId.Denotes pinned id

namespace Environment

/-- The environment with a library in place of the object of a local name. -/
def prebuilt (env : Environment) (name : String) (l : Library) : Environment :=
  { env with objects := env.objects.filter fun x => x.1 ≠ name }.addLibrary l (some name)

/-- The library is that of the object of a local name, and its id is not in use: the local name is
no alias, no alias stands for the id, and no object calls it by its id. -/
structure Prebuilds (env : Environment) (s : ContentId.Strategy) (name : String) (l : Library) :
    Prop where
  linked : ∃ d, env.objects.get? name = some d ∧ linkObject d env s = .ok l
  unnamed : env.aliases.get? name = none
  aliases : ∀ x ∈ env.aliases, ¬ ContentId.Denotes x.2 l.id
  objects : ∀ x ∈ env.objects, x.2.Avoids l.id

section
variable {env : Environment} {s : ContentId.Strategy} {name : String} {l : Library}

theorem get?_objects_prebuilt {other : String} (h : other ≠ name) :
    (env.prebuilt name l).objects.get? other = env.objects.get? other := Dict.get?_filter_ne h

/-- Ids other than the new one have the library that they had. -/
theorem library?_prebuilt {id : String} (h : ¬ ContentId.Denotes id l.id) :
    (env.prebuilt name l).library? id = env.library? id := by
  unfold library?
  split_ifs with hid
  · rcases hnormal : ContentId.normalize id with e | normal
    · rfl
    · have hne : normal ≠ l.id := fun heq => h (hnormal.trans (congrArg _ heq))
      show (env.libraries.put l.id l).get? normal = _
      rw [Dict.get?_put_eq, if_neg hne]
  · rfl

theorem Prebuilds.canonical (h : env.Prebuilds s name l) (hs : s ∈ ContentId.Strategy.known) :
    ContentId.Canonical l.id := by
  obtain ⟨d, -, hlinked⟩ := h.linked
  exact (Library.canonical_of_verify (Library.Addressed.linked hs hlinked).verify).2

theorem library?_of_canonical (hid : ContentId.Canonical l.id) :
    (env.prebuilt name l).library? l.id = some l := by
  unfold library?
  rw [if_pos hid.isId, hid.normalize_eq]
  show (env.libraries.put l.id l).get? l.id = _
  rw [Dict.get?_put_eq, if_pos rfl]

/-- The aliases of other names stand for the libraries that they stood for. -/
theorem Prebuilds.alias_eq (h : env.Prebuilds s name l) {other : String} (hne : other ≠ name) :
    ((env.prebuilt name l).aliases.get? other).bind (env.prebuilt name l).library? =
      (env.aliases.get? other).bind env.library? := by
  have halias : (env.prebuilt name l).aliases.get? other = env.aliases.get? other := by
    show (env.aliases.put name l.id).get? other = _
    rw [Dict.get?_put_eq, if_neg hne]
  rw [halias]
  rcases hid : env.aliases.get? other with _ | id
  · rfl
  · exact library?_prebuilt (h.aliases (other, id) (Dict.mem_of_get? hid))

/-- **What a call finds does not change**, if the object that was linked beforehand gives that
library and the other ones give what they gave. -/
theorem Prebuilds.libraryAt_eq (h : env.Prebuilds s name l) (hs : s ∈ ContentId.Strategy.known)
    {o : Object} (ho : o.Avoids l.id) {f f' : String → Except Failure Library}
    (hself : Calls env o name → f name = .ok l)
    (hother : ∀ other, Calls env o other → other ≠ name → f' other = f other) {r : Relocation}
    (hr : r ∈ o.relocations) (hkind : r.kind = .externalCall) {other routine : String}
    (hsplit : splitTarget? r.target = some (other, routine)) :
    libraryAt (env.prebuilt name l) f' (o.libraryId? other) other =
      libraryAt env f (o.libraryId? other) other := by
  obtain ⟨hname, hpinned⟩ := ho r hr hkind other routine hsplit
  have hpin : (o.libraryId? other).bind (env.prebuilt name l).library? =
      (o.libraryId? other).bind env.library? := by
    rcases hid : o.libraryId? other with _ | id
    · rfl
    · exact library?_prebuilt (hpinned id hid)
  obtain ⟨d, hd, -⟩ := h.linked
  by_cases hne : other = name
  · subst hne
    have halias : (env.prebuilt other l).aliases.get? other = some l.id := by
      show (env.aliases.put other l.id).get? other = _
      rw [Dict.get?_put_eq, if_pos rfl]
    -- The new alias stands for the library that the object gives.
    rcases hfound : (o.libraryId? other).bind env.library? with _ | found
    · have hknown : known? env (o.libraryId? other) other = none :=
        known?_eq_none.mpr ⟨hfound, by rw [h.unnamed]; rfl⟩
      have hknown' : known? (env.prebuilt other l) (o.libraryId? other) other = some l := by
        refine known?_eq_some.mpr (Or.inr ⟨hpin.trans hfound, ?_⟩)
        rw [halias]
        exact library?_of_canonical (h.canonical hs)
      have hhas : env.objects.has other = true := Dict.has_of_get? hd
      rw [libraryAt, libraryAt, hknown, hknown']
      simp only [hhas, if_true]
      rw [hself ⟨⟨r, hr, hkind, routine, hsplit⟩, hknown, hhas⟩]
      rfl
    · have hknown : known? env (o.libraryId? other) other = some found :=
        known?_eq_some.mpr (Or.inl hfound)
      have hknown' : known? (env.prebuilt other l) (o.libraryId? other) other = some found :=
        known?_eq_some.mpr (Or.inl (hpin.trans hfound))
      rw [libraryAt, libraryAt, hknown, hknown']
  · have hknown : known? (env.prebuilt name l) (o.libraryId? other) other =
        known? env (o.libraryId? other) other := by
      rw [known?, known?, hpin, h.alias_eq hne]
    have hhas : (env.prebuilt name l).objects.has other = env.objects.has other := by
      rw [Dict.has_eq_isSome, Dict.has_eq_isSome, get?_objects_prebuilt hne]
    rcases hfound : known? env (o.libraryId? other) other with _ | found
    · rw [libraryAt, libraryAt, hknown, hfound, hhas, library?_prebuilt hname]
      by_cases hobject : env.objects.has other = true
      · rw [hother other ⟨⟨r, hr, hkind, routine, hsplit⟩, hfound, hobject⟩ hne]
      · simp only [hobject]
        rfl
    · rw [libraryAt, libraryAt, hknown, hfound]

theorem Prebuilds.linkFrom_eq (h : env.Prebuilds s name l) (hs : s ∈ ContentId.Strategy.known)
    {o : Object} (ho : o.Avoids l.id) {f f' : String → Except Failure Library}
    (hself : Calls env o name → f name = .ok l)
    (hother : ∀ other, Calls env o other → other ≠ name → f' other = f other) :
    linkFrom (env.prebuilt name l) s f' o = linkFrom env s f o := by
  have hmask : (env.prebuilt name l).mask = env.mask := rfl
  refine linkFrom_congr s hmask fun r hr hkind other routine hsplit => ?_
  unfold faceAt
  rw [h.libraryAt_eq hs ho hself hother hr hkind hsplit]

/-- On the way to the object, it gives its library. -/
theorem Prebuilds.linkUnder_self (h : env.Prebuilds s name l) {fuel : Nat} {stack : List String}
    (htoward : Toward env stack name) (hfuel : env.objects.length ≤ fuel + stack.length) :
    linkUnder env s fuel stack name = .ok l := by
  obtain ⟨d, hd, hlinked⟩ := h.linked
  exact linkUnder_of_linkDeep htoward hfuel (linkDeep_of_linkObject hd hlinked)

/-- The other objects give what they gave, whatever is under way. -/
theorem Prebuilds.linkUnder_eq (h : env.Prebuilds s name l) (hs : s ∈ ContentId.Strategy.known)
    {fuel : Nat} {stack : List String} {other : String} (htoward : Toward env stack other)
    (hfuel : env.objects.length ≤ fuel + stack.length) (hne : other ≠ name) :
    linkUnder (env.prebuilt name l) s fuel stack other = linkUnder env s fuel stack other := by
  induction fuel generalizing stack other with
  | zero => rw [linkUnder, linkUnder, unlessUnder, unlessUnder, get?_objects_prebuilt hne]
  | succ fuel ih =>
    rw [linkUnder, linkUnder, unlessUnder, unlessUnder, get?_objects_prebuilt hne]
    by_cases hnew : other ∈ stack
    · rw [if_pos hnew, if_pos hnew]
    · rcases ho : env.objects.get? other with _ | o
      · rfl
      · have hlength : env.objects.length ≤ fuel + (stack ++ [other]).length := by
          rw [List.length_append, List.length_singleton]
          omega
        rw [if_neg hnew, if_neg hnew]
        refine h.linkFrom_eq hs (h.objects (other, o) (Dict.mem_of_get? ho)) (fun hcalls => ?_)
          fun third hcalls hthird => ?_
        · exact h.linkUnder_self (htoward.push hnew ho hcalls) hlength
        · exact ih (htoward.push hnew ho hcalls) hlength hthird

end

end Environment

/-- **An object may be linked beforehand.** An environment with the library of one of its objects
in place of that object gives every object the same library, or the same failure. -/
theorem linkObject_prebuilt {env : Environment} {s : ContentId.Strategy} {name : String}
    {l : Library} {o : Object} (hs : s ∈ ContentId.Strategy.known)
    (h : env.Prebuilds s name l) (ho : o.Avoids l.id) :
    linkObject o (env.prebuilt name l) s = linkObject o env s := by
  have hlength : (env.prebuilt name l).objects.length ≤ env.objects.length :=
    List.length_filter_le _ _
  rw [linkObject_eq_of_le hlength, linkObject_eq]
  refine h.linkFrom_eq hs ho (fun _ => ?_) fun other _ hne => ?_
  · exact h.linkUnder_self (.nil env name) (Nat.le_add_right _ _)
  · exact h.linkUnder_eq hs (.nil env other) (Nat.le_add_right _ _) hne

/-- An object without calls, and one that calls it. -/
def Environment.chain : Environment where
  objects := [("a", { Object.calling "f" "" with relocations := [] }), ("b", .calling "g" "a.f")]

/-- Local names that are no ids keep an object from naming a library by its id. -/
theorem Object.avoids_of_no_ids {o : Object} (hpins : o.libraries = [])
    (h : ∀ r ∈ o.relocations, ∀ name routine, splitTarget? r.target = some (name, routine) →
      ContentId.normalize name = .error (.malformed name)) (id : String) : o.Avoids id := by
  intro r hr _ name routine hsplit
  refine ⟨fun hdenotes => ?_, fun pinned hpinned => ?_⟩
  · rw [ContentId.Denotes, h r hr name routine hsplit] at hdenotes
    cases hdenotes
  · rw [Object.libraryId?, hpins] at hpinned
    cases hpinned

theorem linkObject_prebuilt_chain : ∃ l, Environment.chain.Prebuilds .sha256 "a" l ∧
    (Object.calling "h" "b.g").Avoids l.id ∧ (Environment.chain.prebuilt "a" l).objects.length = 1 ∧
    linkObject (.calling "h" "b.g") (Environment.chain.prebuilt "a" l) =
      linkObject (.calling "h" "b.g") .chain := by
  obtain ⟨l, hl⟩ := Steps.exists_of_isOk (by decide +kernel :
    (linkObject { Object.calling "f" "" with relocations := [] } .chain).isOk = true)
  have havoids : ∀ routine target name, splitTarget? target = some (name, routine) →
      ContentId.normalize name = .error (.malformed name) → ∀ self,
      (Object.calling self target).Avoids l.id := by
    intro routine target name hsplit hname self
    refine Object.avoids_of_no_ids rfl (fun r hr other routine' hother => ?_) l.id
    rw [List.mem_singleton.mp hr, hsplit] at hother
    obtain ⟨rfl, -⟩ := Prod.mk.inj (Option.some.inj hother)
    exact hname
  have hprebuilds : Environment.chain.Prebuilds .sha256 "a" l := by
    refine ⟨⟨_, rfl, hl⟩, rfl, by simp [Environment.chain], fun x hx => ?_⟩
    rcases List.mem_cons.mp hx with rfl | hx
    · exact Object.avoids_of_no_ids rfl (by simp) l.id
    · rw [List.mem_singleton.mp hx]
      exact havoids "f" "a.f" "a" (by decide) (by decide) "g"
  have hcaller := havoids "g" "b.g" "b" (by decide) (by decide) "h"
  exact ⟨l, hprebuilds, hcaller, rfl,
    linkObject_prebuilt List.mem_cons_self hprebuilds hcaller⟩

/-- A library of one instruction that does nothing. Its id is that of its content, to which the name
of the routine does not belong. -/
def Library.idle (routine : String) : Library where
  id := "sha256:64099588fef9f759f10e289e0e840d73524f0d4fd902f5ecd715e18eb6af3031"
  mask := 1
  code := [0xff, 0, 0, 0, 0, 0, 0, 0]
  data := []
  exports := [⟨routine, .exportedLabel, 0⟩]

/-- The object that is linked to this library. -/
def Object.idle : Object where
  name := ""
  mask := 1
  code := [0xff, 0, 0, 0, 0, 0, 0, 0]
  data := []
  exports := [⟨"f", .exportedLabel, 0⟩]

/-- An environment with no more than this object. -/
def Environment.idle : Environment where
  objects := [("a", .idle)]

/-- The id of the library in capital letters. -/
def ContentId.idleCapitals : String :=
  "sha256:64099588FEF9F759F10E289E0E840D73524F0D4FD902F5ECD715E18EB6AF3031"

/-- An object that calls the routine f of a library that it fixes to this id. -/
def Object.callingCapitals : Object :=
  { Object.calling "g" "x.f" with libraries := [⟨"x", some ContentId.idleCapitals⟩] }

/-- **An id counts in all its spellings.** No local name is the id of the library or fixed to it as
it is written, and the id is not in use in the environment, but a local name is fixed to the id in
capital letters. Its call is not defined before the object is linked beforehand, and it is
afterwards. -/
theorem linkObject_prebuilt_of_capitals :
    Environment.idle.objects.get? "a" = some .idle ∧
      linkObject .idle .idle = .ok (.idle "f") ∧
      Environment.idle.libraries = [] ∧ Environment.idle.aliases = [] ∧
      (∀ o ∈ [Object.idle, .callingCapitals], ∀ x ∈ o.libraries,
        x.name ≠ (Library.idle "f").id ∧ x.id ≠ some (Library.idle "f").id) ∧
      linkObject .callingCapitals .idle = .error (.link (.undefinedExternal "x.f"
        (.unknownLibrary "x" (some ContentId.idleCapitals)))) ∧
      ∃ lib, linkObject .callingCapitals (Environment.idle.prebuilt "a" (.idle "f")) = .ok lib := by
  refine ⟨by decide, by decide +kernel, rfl, rfl, by decide, by decide +kernel, ?_⟩
  exact Steps.exists_of_isOk (by decide +kernel)

/-! ### The order of libraries -/

namespace Environment

/-- Environments that differ in what no call reads. -/
structure Alike (env env' : Environment) : Prop where
  mask : env'.mask = env.mask
  aliases : env'.aliases = env.aliases
  objects : env'.objects = env.objects
  libraries : ∀ id, (env'.libraries.get? id).map Library.face =
    (env.libraries.get? id).map Library.face

section
variable {env env' : Environment} {s : ContentId.Strategy}

theorem Alike.library? (h : Alike env env') (id : String) :
    (env'.library? id).map Library.face = (env.library? id).map Library.face := by
  unfold Environment.library?
  split_ifs
  · rcases ContentId.normalize id with e | normal
    · rfl
    · exact h.libraries normal
  · rfl

theorem Alike.known? (h : Alike env env') (pinned : Option String) (name : String) :
    (Linker.known? env' pinned name).map Library.face =
      (Linker.known? env pinned name).map Library.face := by
  have hbind : ∀ id? : Option String, (id?.bind env'.library?).map Library.face =
      (id?.bind env.library?).map Library.face := by
    intro id?
    cases id? with
    | none => rfl
    | some id => exact h.library? id
  rw [Linker.known?, Linker.known?, Option.orElse_eq_or, Option.orElse_eq_or, Option.map_or,
    Option.map_or, h.aliases, hbind, hbind]

theorem Alike.faceAt (h : Alike env env') (f : String → Except Failure Library)
    (pinned : Option String) (name : String) :
    Linker.faceAt env' f pinned name = Linker.faceAt env f pinned name := by
  have hknown := h.known? pinned name
  unfold Linker.faceAt libraryAt
  generalize Linker.known? env' pinned name = found' at hknown ⊢
  generalize Linker.known? env pinned name = found at hknown ⊢
  rcases found' with _ | l' <;> rcases found with _ | l <;>
    simp only [Option.map_none, Option.map_some, reduceCtorEq, Option.some.injEq] at hknown
  · simp only [h.objects]
    split_ifs
    · rfl
    · exact congrArg Except.ok (h.library? name)
  · exact congrArg (Except.ok ∘ some) hknown

theorem Alike.linkFrom_eq (h : Alike env env') (f : String → Except Failure Library) (o : Object) :
    linkFrom env' s f o = linkFrom env s f o :=
  linkFrom_congr s h.mask fun _ _ _ name _ _ => h.faceAt f (o.libraryId? name) name

theorem Alike.linkUnder_eq (h : Alike env env') (fuel : Nat) (stack : List String) :
    linkUnder env' s fuel stack = linkUnder env s fuel stack := by
  induction fuel generalizing stack with
  | zero =>
    funext name
    rw [linkUnder, linkUnder, unlessUnder, unlessUnder, h.objects]
  | succ fuel ih =>
    funext name
    have hfrom : linkFrom env' s (linkUnder env' s fuel (stack ++ [name])) =
        linkFrom env s (linkUnder env s fuel (stack ++ [name])) := by
      funext o
      rw [ih, h.linkFrom_eq]
    rw [linkUnder, linkUnder, unlessUnder, unlessUnder, h.objects, hfrom]

/-- Environments that differ in what no call reads are the same to the linker. -/
theorem Alike.linkObject_eq (h : Alike env env') (o : Object) :
    linkObject o env' s = linkObject o env s := by
  rw [AluVM.linkObject_eq, AluVM.linkObject_eq, h.objects, h.linkUnder_eq, h.linkFrom_eq]

end

/-- After libraries are added, an id has the last one of them with that id. -/
theorem get?_foldl_addLibrary (ls : List Library) (env : Environment) (id : String) :
    (ls.foldl (fun e l => e.addLibrary l) env).libraries.get? id =
      (ls.reverse.find? (·.id = id)).or (env.libraries.get? id) := by
  induction ls generalizing env with
  | nil => rfl
  | cons l ls ih =>
    have hput : (env.addLibrary l).libraries.get? id =
        if id = l.id then some l else env.libraries.get? id := Dict.get?_put_eq _ _ _ _
    rw [List.foldl_cons, ih, hput, List.reverse_cons, List.find?_append, Option.or_assoc]
    by_cases hid : l.id = id
    · simp [hid]
    · simp [hid, Ne.symm hid]

theorem foldl_addLibrary_frame (ls : List Library) (env : Environment) :
    let after := ls.foldl (fun e l => e.addLibrary l) env
    after.mask = env.mask ∧ after.aliases = env.aliases ∧ after.objects = env.objects := by
  induction ls generalizing env with
  | nil => exact ⟨rfl, rfl, rfl⟩
  | cons l ls ih => exact ih (env.addLibrary l)

end Environment

/-- Libraries with one id have one face. -/
def Library.OneFace (ls : List Library) : Prop := ∀ l ∈ ls, ∀ m ∈ ls, l.id = m.id → l.face = m.face

/-- The face of the last library of an id does not depend on the order. -/
theorem Library.OneFace.find?_perm {ls ls' : List Library} (h : OneFace ls) (hperm : ls'.Perm ls)
    (id : String) : (ls'.reverse.find? (·.id = id)).map face =
      (ls.reverse.find? (·.id = id)).map face := by
  have hmem : ∀ {l : Library}, l ∈ ls'.reverse ↔ l ∈ ls.reverse := by
    intro l
    rw [List.mem_reverse, List.mem_reverse, hperm.mem_iff]
  rcases hfound : ls.reverse.find? (·.id = id) with _ | l
  · have hnone : ls'.reverse.find? (·.id = id) = none :=
      List.find?_eq_none.mpr fun l hl => List.find?_eq_none.mp hfound l (hmem.mp hl)
    rw [hnone, hfound]
  · have hid : l.id = id := by simpa using List.find?_some hfound
    have hl : l ∈ ls.reverse := List.mem_of_find?_eq_some hfound
    obtain ⟨m, hm⟩ : ∃ m, ls'.reverse.find? (·.id = id) = some m := by
      refine Option.isSome_iff_exists.mp (List.find?_isSome.mpr ⟨l, hmem.mpr hl, ?_⟩)
      simpa using hid
    have hmid : m.id = id := by simpa using List.find?_some hm
    have hmls : m ∈ ls := List.mem_reverse.mp (hmem.mp (List.mem_of_find?_eq_some hm))
    rw [hm, hfound, Option.map_some, Option.map_some,
      h m hmls l (List.mem_reverse.mp hl) (hmid.trans hid.symm)]

/-- **The order of libraries does not matter** as long as libraries with one id have one face: the
environment exists or not, and every object has the same library, or the same failure. -/
theorem linkObject_perm {ls ls' : List Library} (hperm : ls'.Perm ls) (h : Library.OneFace ls)
    (aliases : List (String × String)) (objects : List (String × Object)) (mask : Mask)
    (o : Object) (s : ContentId.Strategy) :
    (Environment.of ls' aliases objects mask).map (linkObject o · s) =
      (Environment.of ls aliases objects mask).map (linkObject o · s) := by
  unfold Environment.of
  rcases Environment.normalAliases (Dict.ofList aliases) with e | aliases
  · rfl
  · refine congrArg Except.ok ?_
    let start : Environment := { aliases, objects := Dict.ofList objects, mask }
    obtain ⟨hmask', haliases', hobjects'⟩ := Environment.foldl_addLibrary_frame ls' start
    obtain ⟨hmask, haliases, hobjects⟩ := Environment.foldl_addLibrary_frame ls start
    have halike : Environment.Alike (ls.foldl (fun e l => e.addLibrary l) start)
        (ls'.foldl (fun e l => e.addLibrary l) start) :=
      { mask := hmask'.trans hmask.symm
        aliases := haliases'.trans haliases.symm
        objects := hobjects'.trans hobjects.symm
        libraries := fun id => by
          rw [Environment.get?_foldl_addLibrary, Environment.get?_foldl_addLibrary, Option.map_or,
            Option.map_or, h.find?_perm hperm] }
    exact halike.linkObject_eq o

/-- An object that calls the routine f of the library. -/
def Object.callingIdle : Object :=
  { Object.calling "h" "x.f" with libraries := [⟨"x", some (Library.idle "f").id⟩] }

theorem linkObject_perm_idle :
    let ls : List Library := [.idle "f", .pinned, { Library.idle "f" with entry := some 0 }]
    ls.reverse.Perm ls ∧ Library.OneFace ls ∧
      (Environment.of ls.reverse [] []).map (linkObject .callingIdle ·) =
        (Environment.of ls [] []).map (linkObject .callingIdle ·) ∧
      ∃ env lib, Environment.of ls [] [] = .ok env ∧ linkObject .callingIdle env = .ok lib := by
  intro ls
  have hface : Library.OneFace ls := by
    have hid : Library.pinned.id ≠ (Library.idle "f").id := by decide
    intro l hl m hm hlm
    simp only [ls, List.mem_cons, List.not_mem_nil, or_false] at hl hm
    rcases hl with rfl | rfl | rfl <;> rcases hm with rfl | rfl | rfl <;>
      first | rfl | exact absurd hlm hid | exact absurd hlm.symm hid
  refine ⟨List.reverse_perm ls, hface, linkObject_perm (List.reverse_perm ls) hface [] [] _ _ _, ?_⟩
  obtain ⟨lib, hlib⟩ := Steps.exists_of_isOk (by decide +kernel :
    (linkObject .callingIdle (ls.foldl (fun e l => e.addLibrary l) {})).isOk = true)
  exact ⟨_, lib, rfl, hlib⟩

/-- Two libraries of one id, both with the id of their content: the last one is found, and only one
of them has the routine that is called. -/
theorem linkObject_of_shared_id :
    (Library.idle "f").verify = .ok true ∧ (Library.idle "g").verify = .ok true ∧
      [Library.idle "g", Library.idle "f"].Perm [Library.idle "f", Library.idle "g"] ∧
      (∃ env lib, Environment.of [.idle "g", .idle "f"] [] [] = .ok env ∧
        linkObject .callingIdle env = .ok lib) ∧
      ∃ env, Environment.of [.idle "f", .idle "g"] [] [] = .ok env ∧
        linkObject .callingIdle env = .error (.link
          (.undefinedExternal "x.f" (.notExported (Library.idle "g").id "f"))) := by
  refine ⟨by decide +kernel, by decide +kernel, .swap _ _ [], ?_, _, rfl, by decide +kernel⟩
  obtain ⟨lib, hlib⟩ := Steps.exists_of_isOk (by decide +kernel :
    (linkObject .callingIdle
      ([Library.idle "g", Library.idle "f"].foldl (fun e l => e.addLibrary l) {})).isOk = true)
  exact ⟨_, lib, rfl, hlib⟩

end AluVM
