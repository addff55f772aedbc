import AluVM.Proofs.Forms
import AluVM.Proofs.Linking
import Mathlib.Data.List.Chain

/-! # The recursion of the linker

The objects of an environment may call one another in any way, and a linker follows such calls with
a memory and a stack. What is left of these is described here from outside.

* **One object after another.** A linker that has linked other objects, or failed to, links the next
  one as a new linker does. The invariant is `Ready`: one call keeps it (`Ready.run_link`), so every
  sequence of calls does (`Ready.after`).
* **The end of the recursion.** Whatever stands below as many levels of recursion as there are
  objects makes no difference: it is never reached.
* **Cycles.** Only an object that is under way makes the linker report a cycle; all other steps
  fail with a `Failure.Plain` or pass on the failure of an object that is called
  (`linkFrom_passes`). Along the stack each object calls the next one (`Trail`), so what is reported
  is a `Cycle`. An object that was linked reaches none. -/

namespace AluVM

open Steps

/-! ### One object after another -/

namespace Linker

variable {env : Environment} {s : ContentId.Strategy}

/-- The linker after it was asked for objects one after the other. -/
def after (l : Linker) (os : List Object) : Linker := os.foldl (fun l o => ((link o).run l).2) l

theorem Ready.run_link {l : Linker} (h : Ready env s [] l) (o : Object) :
    ((link o).run l).1 = linkObject o env s ∧ Ready env s [] ((link o).run l).2 := by
  rw [linkObject_eq]
  exact link_acts o l h

theorem Ready.after : ∀ {l : Linker} (os : List Object), Ready env s [] l →
    Ready env s [] (l.after os)
  | _, [], h => h
  | _, o :: os, h => Ready.after os (h.run_link o).2

/-- What is remembered is what the object gives on its own. -/
theorem Ready.linkObject_of_linked {stack : List String} {l : Linker} (h : Ready env s stack l)
    {name : String} {library : Library} (hlinked : l.linked.get? name = some library) :
    ∃ d, env.objects.get? name = some d ∧ linkObject d env s = .ok library := by
  obtain ⟨depth, hdepth⟩ := h.linked _ (Dict.mem_of_get? hlinked)
  exact linkObject_of_linkDeep hdepth

end Linker

open Linker

/-- **A linker that is shared links as a new one does.** After any sequence of objects, linked or
refused, the next call has the result of a linker of its own, nothing is left under way, and all
that is remembered is what the objects of the environment give on their own. -/
theorem shared_links_as_fresh (env : Environment) (s : ContentId.Strategy) (before : List Object)
    (o : Object) :
    let call := (link o).run (after { env, strategy := s } before)
    call.1 = linkObject o env s ∧ call.2.stack = [] ∧
      ∀ name library, call.2.linked.get? name = some library →
        ∃ d, env.objects.get? name = some d ∧ linkObject d env s = .ok library := by
  intro call
  obtain ⟨hresult, hready⟩ := ((ready_new env s).after before).run_link o
  exact ⟨hresult, hready.stack_eq, fun _ _ => hready.linkObject_of_linked⟩

/-- An object with one routine, which calls another one. -/
def Object.calling (routine target : String) : Object where
  name := routine
  mask := 1
  code := [0x71, 0, 0, 0]
  data := []
  exports := [⟨routine, .exportedLabel, 0⟩]
  relocations := [⟨1, .externalCall, target⟩]

/-- Two objects that call each other, and one that calls nothing. -/
def Environment.ring : Environment where
  objects := [("a", .calling "f" "b.g"), ("b", .calling "g" "a.f"),
    ("c", { Object.calling "h" "" with relocations := [] })]

theorem shared_links_as_fresh_after_cycle : ∃ d library,
    let call := (link (.calling "y" "c.h")).run
      (after { env := .ring } [.calling "x" "a.f", .calling "z" "c.h"])
    call.1 = linkObject (.calling "y" "c.h") .ring ∧ call.2.stack = [] ∧
      call.2.linked.get? "c" = some library ∧ Environment.ring.objects.get? "c" = some d ∧
      linkObject d .ring = .ok library := by
  obtain ⟨hresult, hstack, hlinked⟩ := shared_links_as_fresh .ring .sha256
    [.calling "x" "a.f", .calling "z" "c.h"] (.calling "y" "c.h")
  obtain ⟨library, hlibrary⟩ := Option.isSome_iff_exists.mp
    (by decide +kernel : (((link (.calling "y" "c.h")).run
      (after { env := .ring } [.calling "x" "a.f", .calling "z" "c.h"])).2.linked.get? "c").isSome)
  obtain ⟨d, hd, hlink⟩ := hlinked "c" library hlibrary
  exact ⟨d, library, hresult, hstack, hlibrary, hd, hlink⟩

/-! ### Failures that are not about cycles -/

/-- Whether a failure tells of a cycle. -/
def Failure.isCyclic : Failure → Bool
  | .link (.cyclic _) => true
  | _ => false

/-- The failure does not tell of a cycle. -/
def Failure.Plain (e : Failure) : Prop := e.isCyclic = false

theorem Failure.plain_internal (cause : EncodeCause) : (Failure.internal cause).Plain := by
  unfold Failure.internal Failure.checked
  split_ifs <;> rfl

theorem Failure.covers_plain : Failure.Covers (fun _ => True) Failure.Plain :=
  fun cause _ => plain_internal cause

theorem Object.shows_all (o : Object) : o.Shows fun _ => True :=
  ⟨fun _ _ => trivial, fun _ _ => trivial⟩

namespace Library

theorem idFields_plain (ids : List String) :
    Yields (fun _ => True) Failure.Plain (idFields ids) := by
  refine (Yields.mapM fun id _ => ?_).bind fun _ _ => trivial
  rcases ContentId.normalize id with e | normal
  · exact rfl
  · exact (Wire.Field.encode_yields _).imp (fun _ h => h) fun e he => by rw [he]; rfl

theorem canonicalBytes_plain (mask : Mask) (code data : Bytes) (ids : List String) :
    Yields (fun _ => True) Failure.Plain (canonicalBytes mask code data ids) := by
  unfold canonicalBytes
  rcases mask.manifest with e | line
  · exact rfl
  · have hhead : Yields (fun _ => True) Failure.Plain
        (Wire.encodeAll [.text line, .blob code, .blob data, .u16 ids.length]) :=
      (Wire.encodeFrom_yields _ _).imp (fun _ h => h) fun e he => by rw [he]; rfl
    exact hhead.bind fun _ _ => (idFields_plain ids).bind fun _ _ => trivial

theorem build_plain (s : ContentId.Strategy) (l : Library) :
    Yields (fun _ => True) Failure.Plain (build s l) := by
  have hid : ∀ {α : Type} (x : Except IdError α),
      Yields (fun _ => True) Failure.Plain (x.mapError Failure.id) := by
    rintro α (e | a)
    · exact rfl
    · trivial
  refine (hid _).bind fun ids _ => (canonicalBytes_plain _ _ _ _).bind fun content _ => ?_
  exact (hid _).bind fun _ _ => trivial

end Library

namespace Linker

variable {env : Environment} {s : ContentId.Strategy} {f : String → Except Failure Library}

theorem supports_plain (env : Environment) (mask : Mask) (who : String) :
    Yields (fun _ => True) Failure.Plain (supports env mask who) := by
  unfold supports
  split
  · exact rfl
  · split_ifs
    · exact rfl
    · trivial

theorem checkPin_plain (pinned : Option String) (name target : String) (l : Library) :
    Yields (fun _ => True) Failure.Plain (checkPin pinned name target l) := by
  unfold checkPin
  split
  · trivial
  · split
    · exact rfl
    · split_ifs
      · trivial
      · exact rfl

/-- A failure that does not tell of a cycle, or that of an object that is called. -/
def Passes (env : Environment) (f : String → Except Failure Library) (o : Object) (e : Failure) :
    Prop :=
  e.Plain ∨ ∃ name, Calls env o name ∧ f name = .error e

theorem Passes.of_plain {α : Type} {P : α → Prop} {o : Object} {x : Except Failure α}
    (h : Yields P Failure.Plain x) : Yields P (Passes env f o) x :=
  h.imp (fun _ ha => ha) fun _ he => Or.inl he

theorem libraryAt_passes {o : Object} {r : Relocation} {name routine : String}
    (hr : r ∈ o.relocations) (hkind : r.kind = .externalCall)
    (hsplit : splitTarget? r.target = some (name, routine)) :
    Yields (fun _ => True) (Passes env f o) (libraryAt env f (o.libraryId? name) name) := by
  rcases libraryAt_cases env o hr hkind hsplit with ⟨hcalls, hat⟩ | ⟨found, hat⟩
  · rw [hat f]
    rcases hf : f name with e | l
    · exact Or.inr ⟨name, hcalls, hf⟩
    · trivial
  · rw [hat f]
    trivial

theorem fillCall_passes {j : Job} {r : Relocation} (hr : r ∈ j.object.relocations)
    (hkind : r.kind = .externalCall) :
    Yields (fun k => k.object = j.object) (Passes env f j.object) (fillCall env f j r) := by
  refine Yields.of_ok (P := fun _ => True) ?_ fun _ => fillCall_object
  unfold fillCall
  split
  · exact Or.inl (Failure.plain_internal _)
  · rename_i name routine hsplit
    have hlibrary : Yields (fun _ => True) (Passes env f j.object)
        (libraryFor env f j.object name r.target) := by
      refine (libraryAt_passes hr hkind hsplit).bind fun found _ => ?_
      rcases found with _ | l
      · exact Or.inl rfl
      · refine (Passes.of_plain (checkPin_plain _ _ _ _)).bind fun _ _ => ?_
        exact (Passes.of_plain (supports_plain _ _ _)).bind fun _ _ => trivial
    refine hlibrary.bind fun l _ => ?_
    split
    · exact Or.inl rfl
    · have hcall := Job.resolveCall_covered (r := r) (j := j) Failure.covers_plain rfl trivial
      exact (Passes.of_plain (hcall l.id trivial)).bind fun _ _ => trivial

theorem linkFrom_passes (o : Object) :
    Yields (fun _ => True) (Passes env f o) (linkFrom env s f o) := by
  refine linkFrom_rounds (J := fun j => j.object = o) (fun _ hj => hj) rfl
    (Passes.of_plain (supports_plain env o.mask o.name)) ?_ ?_ ?_
    fun j _ => Passes.of_plain (Library.build_plain _ _)
  · rintro r hr - j rfl
    have hlabel := Job.resolve_covered Failure.covers_plain trivial
      (Object.labelValue_covered Failure.covers_plain j.object.shows_all r.target)
    exact Passes.of_plain (hlabel.of_ok fun k => Job.resolve_object)
  · rintro r hr hkind j rfl
    exact fillCall_passes hr hkind
  · rintro r hr - j rfl
    have hdatum := Job.resolve_covered Failure.covers_plain trivial
      (Object.datumValue_covered Failure.covers_plain j.object.shows_all r.target)
    exact Passes.of_plain (hdatum.of_ok fun k => Job.resolve_object)

/-- A cycle is reported because an object that is called reports it. -/
theorem calls_of_cyclic {o : Object} {chain : List String}
    (h : linkFrom env s f o = .error (.link (.cyclic chain))) :
    ∃ name, Calls env o name ∧ f name = .error (.link (.cyclic chain)) := by
  have hpasses : Yields (fun _ => True) (Passes env f o) (linkFrom env s f o) := linkFrom_passes o
  rw [h] at hpasses
  rcases hpasses with hplain | hcalled
  · cases hplain
  · exact hcalled

/-! ### Cycles -/

/-- An object leads, by calls of objects of the environment, to one of these. -/
def Reaches (env : Environment) (o : Object) (name : String) : Prop :=
  ∃ first, Calls env o first ∧ Relation.ReflTransGen (Needs env) first name

/-- The names on the way from an object to one that it needs: each calls the next one. -/
structure Trail (env : Environment) (o : Object) (stack : List String) (name : String) : Prop where
  nodup : stack.Nodup
  needs : (stack ++ [name]).IsChain (Needs env)
  reached : ∀ a ∈ stack ++ [name], Reaches env o a

theorem Trail.start {o : Object} {name : String} (h : Calls env o name) : Trail env o [] name where
  nodup := .nil
  needs := .singleton name
  reached a ha := by
    rw [List.nil_append, List.mem_singleton] at ha
    exact ha ▸ ⟨name, h, .refl⟩

theorem Trail.push {o : Object} {stack : List String} {name other : String}
    (h : Trail env o stack name) (hnew : name ∉ stack) (hneeds : Needs env name other) :
    Trail env o (stack ++ [name]) other where
  nodup := by
    rw [← List.concat_eq_append]
    exact h.nodup.concat hnew
  needs := by
    refine h.needs.append (.singleton other) fun a ha b hb => ?_
    rw [List.getLast?_concat, Option.mem_some_iff] at ha
    rw [List.head?_cons, Option.mem_some_iff] at hb
    rwa [← ha, ← hb]
  reached a ha := by
    rcases List.mem_append.mp ha with ha | ha
    · exact h.reached a ha
    · obtain ⟨first, hcalls, hpath⟩ := h.reached name (by simp)
      rw [List.mem_singleton.mp ha]
      exact ⟨first, hcalls, hpath.tail hneeds⟩

/-- **A cycle of calls** that an object leads to, from one name to itself. -/
structure Cycle (env : Environment) (o : Object) (chain : List String) : Prop where
  length : 2 ≤ chain.length
  closed : chain.head? = chain.getLast?
  nodup : chain.dropLast.Nodup
  needs : chain.IsChain (Needs env)
  reached : ∀ a ∈ chain, Reaches env o a

/-- A name that is under way closes a cycle. -/
theorem Trail.cycle {o : Object} {stack : List String} {name : String}
    (h : Trail env o stack name) (hmem : name ∈ stack) : Cycle env o (cycle stack name) := by
  -- The chain starts at the only place of the name, so what follows is a suffix of the trail.
  obtain ⟨early, late, hstack, hearly⟩ := List.eq_append_cons_of_mem hmem
  have hcycle : Linker.cycle stack name = name :: late ++ [name] := by
    have hskip : ∀ a ∈ early, decide (a ≠ name) = true := fun a ha =>
      decide_eq_true fun heq => hearly (heq ▸ ha)
    rw [Linker.cycle, hstack, List.dropWhile_append_of_pos hskip,
      List.dropWhile_cons_of_neg (by simp)]
  have hsuffix : name :: late ++ [name] <:+ stack ++ [name] := by
    rw [hstack, List.append_assoc]
    exact List.suffix_append early _
  rw [hcycle]
  refine ⟨by simp, ?_, ?_, h.needs.suffix hsuffix, fun a ha => h.reached a (hsuffix.subset ha)⟩
  · rw [List.getLast?_concat]
    rfl
  · rw [List.dropLast_concat]
    have hnodup := h.nodup
    rw [hstack] at hnodup
    exact (List.nodup_append.mp hnodup).2.1

theorem unlessUnder_cyclic {stack chain : List String} {fresh : Object → Except Failure Library}
    {name : String} (h : unlessUnder env stack fresh name = .error (.link (.cyclic chain))) :
    (name ∈ stack ∧ chain = cycle stack name) ∨ name ∉ stack ∧
      ∃ d, env.objects.get? name = some d ∧ fresh d = .error (.link (.cyclic chain)) := by
  unfold unlessUnder at h
  split_ifs at h with hmem
  · cases h
    exact Or.inl ⟨hmem, rfl⟩
  · split at h
    · cases h
    · rename_i d hd
      exact Or.inr ⟨hmem, d, hd, h⟩

/-- **What is reported as a cycle is one.** -/
theorem linkUnder_cyclic {o : Object} {chain : List String} : ∀ {fuel : Nat} {stack : List String}
    {name : String}, Trail env o stack name →
    linkUnder env s fuel stack name = .error (.link (.cyclic chain)) → Cycle env o chain
  | 0, stack, name, htrail, h => by
    rcases unlessUnder_cyclic h with ⟨hmem, rfl⟩ | ⟨-, d, -, hd⟩
    · exact htrail.cycle hmem
    · cases hd
  | fuel + 1, stack, name, htrail, h => by
    -- Either the cycle closes here, or an object that is called reports it from further down.
    rcases unlessUnder_cyclic h with ⟨hmem, rfl⟩ | ⟨hnew, d, hd, hfrom⟩
    · exact htrail.cycle hmem
    · obtain ⟨other, hcalls, hother⟩ := calls_of_cyclic hfrom
      exact linkUnder_cyclic (htrail.push hnew ⟨d, hd, hcalls⟩) hother

theorem cycle_of_linkObject {o : Object} {chain : List String}
    (h : linkObject o env s = .error (.link (.cyclic chain))) : Cycle env o chain := by
  rw [linkObject_eq] at h
  obtain ⟨name, hcalls, hname⟩ := calls_of_cyclic h
  exact linkUnder_cyclic (.start hcalls) hname

/-- **An object that is linked leads to no cycle.** -/
theorem not_cyclic_of_linkObject {o : Object} {library : Library}
    (h : linkObject o env s = .ok library) {name : String} (hreaches : Reaches env o name) :
    ¬ Relation.TransGen (Needs env) name name := by
  rw [linkObject_eq] at h
  obtain ⟨first, hcalls, hpath⟩ := hreaches
  obtain ⟨l, hl⟩ := exists_of_calls h hcalls
  have hdeep := linkDeep_of_linkUnder hl
  rcases Relation.reflTransGen_iff_eq_or_transGen.mp hpath with rfl | hpath
  · exact not_needs_self hdeep
  · obtain ⟨_, -, _, hdeep'⟩ := exists_of_transGen hpath hdeep
    exact not_needs_self hdeep'

end Linker

/-- **Linking ends, and it finds cycles.** In any environment, and whatever was linked before:

* the recursion is no deeper than the number of objects, as nothing that could stand below so many
  levels makes a difference;
* an object that is linked leads to no object that needs itself;
* what is reported as a cycle is one that the object leads to. -/
theorem link_ends_and_finds_cycles (env : Environment) (s : ContentId.Strategy)
    (before : List Object) (o : Object) :
    let l := after { env, strategy := s } before
    (∀ (below : Object → LinkM Library) (depth : Nat), env.objects.length ≤ depth →
      ((linkWith (nested below depth) o).run l).1 = ((link o).run l).1) ∧
    (∀ library, ((link o).run l).1 = .ok library →
      ∀ name, Reaches env o name → ¬ Relation.TransGen (Needs env) name name) ∧
    ∀ chain, ((link o).run l).1 = .error (.link (.cyclic chain)) → Cycle env o chain := by
  intro l
  have hready : Ready env s [] l := (ready_new env s).after before
  have hlink : ((link o).run l).1 = linkObject o env s := (hready.run_link o).1
  rw [hlink]
  refine ⟨fun below depth hdepth => ?_, fun library h name => not_cyclic_of_linkObject h,
    fun chain h => cycle_of_linkObject h⟩
  rw [linkObject_eq]
  exact (linkWith_nested_acts below hdepth o l hready).1

theorem link_ends_and_finds_cycles_of_ring :
    (∃ library, ((link (.calling "y" "c.h")).run { env := .ring }).1 = .ok library ∧
      ((linkWith (nested (fun _ => throw .tooDeep) 3) (.calling "y" "c.h")).run
        { env := .ring }).1 = .ok library) ∧
    (Reaches .ring (.calling "y" "c.h") "c" ∧ ¬ Relation.TransGen (Needs .ring) "c" "c") ∧
    ((link (.calling "x" "a.f")).run { env := .ring }).1 =
      .error (.link (.cyclic ["a", "b", "a"])) ∧
    Cycle .ring (.calling "x" "a.f") ["a", "b", "a"] := by
  obtain ⟨hdepth, hok, -⟩ := link_ends_and_finds_cycles .ring .sha256 [] (.calling "y" "c.h")
  obtain ⟨-, -, hcyclic⟩ := link_ends_and_finds_cycles .ring .sha256 [] (.calling "x" "a.f")
  obtain ⟨library, hlibrary⟩ := exists_of_isOk
    (by decide +kernel : ((link (.calling "y" "c.h")).run { env := .ring }).1.isOk = true)
  have hreaches : Reaches .ring (.calling "y" "c.h") "c" :=
    ⟨"c", ⟨⟨_, List.mem_cons_self, rfl, "h", by decide⟩, by decide, by decide⟩, .refl⟩
  have herror : ((link (.calling "x" "a.f")).run { env := .ring }).1 =
      .error (.link (.cyclic ["a", "b", "a"])) := by decide +kernel
  exact ⟨⟨library, hlibrary, (hdepth _ 3 (by decide)).trans hlibrary⟩,
    ⟨hreaches, hok library hlibrary "c" hreaches⟩, herror, hcyclic _ herror⟩

end AluVM
