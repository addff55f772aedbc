import AluVM.Proofs.FileLinking
import AluVM.Proofs.LinkedFiles
import AluVM.Proofs.Recursion

/-! # The dependencies of a linked object

The objects of the environment that a linker meets on its way are kept in its memory, which is
handed out with the library. Nothing is missing there: every library that the result names, and
every library that one of those in the memory names, stands in the environment or in the memory.
And nothing is there that is not needed.

The memory is filled deep in the recursion. What a run that succeeds does to it is `Gathers`: what
was there stays, what is new is reached from the objects that were asked for, and the memory is
`Closed` under calls afterwards. An object gets into the memory only after all that it calls
(`linkOnce_gathers`), and the calls of one object are gathered one after the other
(`resolveCall_gathers`, `linkWith_gathers`). -/

namespace AluVM

open Linker

namespace Linker

/-! ### Runs that succeed -/

section Runs
variable {α β σ : Type} {l l' l'' : Linker}

theorem run_bind_eq_ok {m : LinkM α} {k : α → LinkM β} {b : β}
    (h : (m >>= k).run l = (.ok b, l'')) :
    ∃ a l', m.run l = (.ok a, l') ∧ (k a).run l' = (.ok b, l'') := by
  rw [run_bind] at h
  rcases hm : m.run l with ⟨e | a, l'⟩
  · rw [hm] at h
    cases h
  · rw [hm] at h
    exact ⟨a, l', rfl, h⟩

theorem run_lift_eq_ok {x : Except Failure α} {a : α} (h : (lift x).run l = (.ok a, l')) :
    x = .ok a ∧ l = l' := by
  rcases x with e | a'
  · cases h
  · cases h
    exact ⟨rfl, rfl⟩

theorem run_step_eq_ok {object : String} {state : JobState} {m : LinkM α} {a : α}
    (h : (step object state m).run l = (.ok a, l')) : m.run l = (.ok a, l') := by
  rw [run_step] at h
  rcases hm : m.run l with ⟨e | a', l1⟩
  · rw [hm] at h
    dsimp only at h
    split_ifs at h <;> cases h
  · rw [hm] at h
    exact h

theorem run_checkMask_eq_ok {mask : Mask} {who : String} {u : Unit}
    (h : (checkMask mask who).run l = (.ok u, l')) : l = l' := by
  obtain ⟨_, _, hget, h⟩ := run_bind_eq_ok h
  cases hget
  split at h
  · cases h
  · split_ifs at h <;> cases h
    rfl

/-- **Induction along a run of steps that succeeds.** -/
theorem run_foldlM_induction {F : σ → α → LinkM σ} (R : List α → σ → Linker → Prop) {xs : List α}
    {t u : σ} (h0 : R [] t l)
    (hstep : ∀ done x rest t₁ l₁ t₂ l₂, xs = done ++ x :: rest → R done t₁ l₁ →
      (F t₁ x).run l₁ = (.ok t₂, l₂) → R (done ++ [x]) t₂ l₂)
    (h : (xs.foldlM F t).run l = (.ok u, l')) : R xs u l' := by
  suffices key : ∀ (rest done : List α) (t₁ : σ) (l₁ : Linker), xs = done ++ rest → R done t₁ l₁ →
      (rest.foldlM F t₁).run l₁ = (.ok u, l') → R xs u l' from key xs [] t l rfl h0 h
  intro rest
  induction rest with
  | nil =>
    intro done t₁ l₁ hxs hR hrun
    cases hrun
    rwa [hxs, List.append_nil]
  | cons x rest ih =>
    intro done t₁ l₁ hxs hR hrun
    rw [List.foldlM_cons] at hrun
    obtain ⟨t₂, l₂, hx, hrest⟩ := run_bind_eq_ok hrun
    exact ih (done ++ [x]) t₂ l₂ (by simp [hxs]) (hstep done x rest t₁ l₁ t₂ l₂ hxs hR hx) hrest

/-- Linkers with the same environment and the same memory. -/
structure Agrees (l l' : Linker) : Prop where
  env_eq : l'.env = l.env
  linked_eq : l'.linked = l.linked

theorem Agrees.trans (h : Agrees l l') (h' : Agrees l' l'') : Agrees l l'' :=
  ⟨h'.env_eq.trans h.env_eq, h'.linked_eq.trans h.linked_eq⟩

theorem run_record_eq_ok {event : LinkEvent} {u : Unit} (h : (record event).run l = (.ok u, l')) :
    Agrees l l' := by
  cases h
  exact ⟨rfl, rfl⟩

variable {inline : String → LinkM Library}

/-- The library of a local name is that of an object, which is linked, or nothing happens. -/
theorem run_findLibrary_eq_ok {pinned : Option String} {name : String} {found : Option Library}
    (h : (findLibrary inline pinned name).run l = (.ok found, l')) :
    (known? l.env pinned name = none ∧ l.env.objects.has name = true ∧
        ∃ library, (inline name).run l = (.ok library, l')) ∨
      ¬ (known? l.env pinned name = none ∧ l.env.objects.has name = true) ∧ l' = l := by
  obtain ⟨_, _, hget, h⟩ := run_bind_eq_ok h
  cases hget
  dsimp only at h
  split at h
  · rename_i hknown
    cases h
    exact Or.inr ⟨fun hnone => by simp [hknown] at hnone, rfl⟩
  · rename_i hknown
    split_ifs at h with hhas
    · obtain ⟨library, l₁, hinline, h⟩ := run_bind_eq_ok h
      cases h
      exact Or.inl ⟨hknown, hhas, library, hinline⟩
    · cases h
      exact Or.inr ⟨fun hnone => hhas hnone.2, rfl⟩

theorem run_resolveLibrary_eq_ok {o : Object} {name target : String} {library : Library}
    (h : (resolveLibrary inline o name target).run l = (.ok library, l')) :
    ∃ found, (findLibrary inline (o.libraryId? name) name).run l = (.ok found, l') := by
  obtain ⟨found, l₁, hfound, h⟩ := run_bind_eq_ok h
  split at h
  · cases h
  · obtain ⟨_, l₂, hpin, h⟩ := run_bind_eq_ok h
    obtain ⟨_, l₃, hmask, h⟩ := run_bind_eq_ok h
    obtain ⟨-, rfl⟩ := run_lift_eq_ok hpin
    obtain rfl := run_checkMask_eq_ok hmask
    cases h
    exact ⟨_, hfound⟩

theorem run_resolveCall_eq_ok {j j' : Job} {r : Relocation}
    (h : (resolveCall inline j r).run l = (.ok j', l')) :
    j'.object = j.object ∧ ∃ name routine found l₁, splitTarget? r.target = some (name, routine) ∧
      (findLibrary inline (j.object.libraryId? name) name).run l = (.ok found, l₁) ∧
      Agrees l₁ l' := by
  unfold resolveCall at h
  split at h
  · cases h
  · rename_i name routine hsplit
    obtain ⟨library, l₁, hlibrary, h⟩ := run_bind_eq_ok h
    obtain ⟨found, hfound⟩ := run_resolveLibrary_eq_ok hlibrary
    split at h
    · cases h
    · obtain ⟨⟨index, j₁⟩, l₂, hcall, h⟩ := run_bind_eq_ok h
      obtain ⟨hjob, rfl⟩ := run_lift_eq_ok hcall
      obtain ⟨_, l₃, hrecord, h⟩ := run_bind_eq_ok h
      cases h
      exact ⟨(Job.resolveCall_eq_ok hjob).2.2.2.2.2.1.object, name, routine, found, l₁, hsplit,
        hfound, run_record_eq_ok hrecord⟩

/-- Of the stages of linking an object only the calls change the memory. -/
theorem run_linkWith_eq_ok {o : Object} {library : Library}
    (h : (linkWith inline o).run l = (.ok library, l')) : ∃ j j' l₁ l₂, j.object = o ∧
      Agrees l l₁ ∧ (resolveCalls inline j).run l₁ = (.ok j', l₂) ∧ Agrees l₂ l' := by
  obtain ⟨j, l₁, hlabels, h⟩ := run_bind_eq_ok h
  obtain ⟨_, _, hmask, hlabels⟩ := run_bind_eq_ok (run_step_eq_ok hlabels)
  obtain rfl := run_checkMask_eq_ok hmask
  obtain ⟨hj, rfl⟩ := run_lift_eq_ok hlabels
  obtain ⟨_, l₂, hfirst, h⟩ := run_bind_eq_ok h
  obtain ⟨j₂, l₃, hfields, h⟩ := run_bind_eq_ok h
  obtain ⟨j₁, _, hcalls, hdata⟩ := run_bind_eq_ok (run_step_eq_ok hfields)
  obtain ⟨-, rfl⟩ := run_lift_eq_ok hdata
  obtain ⟨_, l₄, hsecond, h⟩ := run_bind_eq_ok h
  obtain ⟨lib, l₅, hlibrary, h⟩ := run_bind_eq_ok h
  obtain ⟨_, _, hget, hlibrary⟩ := run_bind_eq_ok (run_step_eq_ok hlibrary)
  cases hget
  obtain ⟨-, rfl⟩ := run_lift_eq_ok hlibrary
  obtain ⟨_, l₆, hthird, h⟩ := run_bind_eq_ok h
  obtain ⟨_, l₇, hfourth, h⟩ := run_bind_eq_ok h
  cases h
  refine ⟨j, j₁, l₂, _, resolveAll_object hj, run_record_eq_ok hfirst, hcalls, ?_⟩
  exact ((run_record_eq_ok hsecond).trans (run_record_eq_ok hthird)).trans
    (run_record_eq_ok hfourth)

/-- An object of the environment is in the memory, or it is linked and put there. -/
theorem run_linkOnce_eq_ok {fresh : Object → LinkM Library} {name : String} {library : Library}
    (h : (linkOnce fresh name).run l = (.ok library, l')) :
    l.linked.get? name = some library ∧ l' = l ∨
      ∃ o l₁, l.env.objects.get? name = some o ∧
        (fresh o).run { l with stack := l.stack ++ [name] } = (.ok library, l₁) ∧
        l' = { l₁ with stack := l₁.stack.dropLast, linked := l₁.linked.put name library } := by
  obtain ⟨_, _, hget, h⟩ := run_bind_eq_ok h
  cases hget
  split at h
  · rename_i hmemo
    cases h
    exact Or.inl ⟨hmemo, rfl⟩
  · split_ifs at h with hstack
    · cases h
    · dsimp only at h
      split at h
      · cases h
      · rename_i o ho
        rw [run_remembering] at h
        rcases hfresh : (fresh o).run { l with stack := l.stack ++ [name] } with ⟨e | a, l₁⟩
        · rw [hfresh] at h
          cases h
        · rw [hfresh] at h
          cases h
          exact Or.inr ⟨o, l₁, ho, hfresh, rfl⟩

end Runs

/-! ### What is gathered -/

section Gathers
variable {env : Environment} {roots : String → Prop} {l l' l'' : Linker}

/-- The memory holds what its objects call. -/
structure Closed (env : Environment) (l : Linker) : Prop where
  env_eq : l.env = env
  needs : ∀ name other, l.linked.has name = true → Needs env name other → l.linked.has other = true

theorem closed_new (env : Environment) (s : ContentId.Strategy) :
    Closed env { env, strategy := s } :=
  ⟨rfl, fun _ _ h => by simp [Dict.has] at h⟩

theorem Closed.agrees (h : Closed env l) (hagrees : Agrees l l') : Closed env l' := by
  refine ⟨hagrees.env_eq.trans h.env_eq, ?_⟩
  rw [hagrees.linked_eq]
  exact h.needs

/-- **The memory of a linker grows**: nothing is lost, what is new is reached from the roots, and
the memory is closed. -/
structure Gathers (env : Environment) (roots : String → Prop) (l l' : Linker) : Prop where
  closed : Closed env l'
  keeps : ∀ name, l.linked.has name = true → l'.linked.has name = true
  reached : ∀ name, l'.linked.has name = true → l.linked.has name = true ∨
    ∃ first, roots first ∧ Relation.ReflTransGen (Needs env) first name

theorem Gathers.of_agrees (hl : Closed env l) (h : Agrees l l') : Gathers env roots l l' := by
  refine ⟨hl.agrees h, ?_, ?_⟩
  · rw [h.linked_eq]
    exact fun _ hhas => hhas
  · rw [h.linked_eq]
    exact fun _ hhas => Or.inl hhas

theorem Gathers.trans (h : Gathers env roots l l') (h' : Gathers env roots l' l'') :
    Gathers env roots l l'' := by
  refine ⟨h'.closed, fun name hhas => h'.keeps name (h.keeps name hhas), fun name hhas => ?_⟩
  rcases h'.reached name hhas with hhas | hreached
  · exact h.reached name hhas
  · exact Or.inr hreached

theorem Gathers.widen {roots' : String → Prop} (h : Gathers env roots l l')
    (hroots : ∀ a, roots a → ∃ first, roots' first ∧ Relation.ReflTransGen (Needs env) first a) :
    Gathers env roots' l l' := by
  refine ⟨h.closed, h.keeps, fun name hhas => (h.reached name hhas).imp id ?_⟩
  rintro ⟨a, ha, hpath⟩
  obtain ⟨first, hfirst, hpath'⟩ := hroots a ha
  exact ⟨first, hfirst, hpath'.trans hpath⟩

/-- A computation gathers what an object of the environment needs, and that object. -/
def Inlines (env : Environment) (name : String) (m : LinkM Library) : Prop :=
  ∀ l library l', Closed env l → m.run l = (.ok library, l') →
    Gathers env (· = name) l l' ∧ l'.linked.has name = true

variable {inline : String → LinkM Library}

theorem resolveCall_gathers {j j' : Job} {r : Relocation} (hr : r ∈ j.object.relocations)
    (hkind : r.kind = .externalCall)
    (hinline : ∀ name, Calls env j.object name → Inlines env name (inline name))
    (hl : Closed env l) (h : (resolveCall inline j r).run l = (.ok j', l')) :
    j'.object = j.object ∧ Gathers env (Calls env j.object) l l' ∧
      ∀ name routine, splitTarget? r.target = some (name, routine) → Calls env j.object name →
        l'.linked.has name = true := by
  obtain ⟨hobject, name, routine, found, l₁, hsplit, hfound, hagrees⟩ := run_resolveCall_eq_ok h
  refine ⟨hobject, ?_⟩
  rw [hagrees.linked_eq, hsplit]
  rcases run_findLibrary_eq_ok hfound with ⟨hknown, hhas, library, hrun⟩ | ⟨hother, rfl⟩
  · rw [hl.env_eq] at hknown hhas
    have hcalls : Calls env j.object name := ⟨⟨r, hr, hkind, routine, hsplit⟩, hknown, hhas⟩
    obtain ⟨hgathers, hheld⟩ := hinline name hcalls l library l₁ hl hrun
    constructor
    · refine (hgathers.widen fun a ha => ?_).trans (.of_agrees hgathers.closed hagrees)
      exact ⟨name, hcalls, ha ▸ .refl⟩
    · rintro _ _ ⟨⟩ -
      exact hheld
  · rw [hl.env_eq] at hother
    refine ⟨.of_agrees hl hagrees, ?_⟩
    rintro _ _ ⟨⟩ hcalls
    exact absurd hcalls.2 hother

/-- **The calls of an object** are gathered one after the other. -/
theorem linkWith_gathers {o : Object} {library : Library}
    (hinline : ∀ name, Calls env o name → Inlines env name (inline name))
    (hl : Closed env l) (h : (linkWith inline o).run l = (.ok library, l')) :
    Gathers env (Calls env o) l l' ∧ ∀ name, Calls env o name → l'.linked.has name = true := by
  obtain ⟨j, j', l₁, l₂, rfl, hbefore, hcalls, hafter⟩ := run_linkWith_eq_ok h
  have hround : j'.object = j.object ∧ Gathers env (Calls env j.object) l l₂ ∧
      ∀ r ∈ j.object.relocationsOf .externalCall, ∀ name routine,
        splitTarget? r.target = some (name, routine) → Calls env j.object name →
          l₂.linked.has name = true := by
    refine run_foldlM_induction (fun done k t => k.object = j.object ∧
      Gathers env (Calls env j.object) l t ∧ ∀ r ∈ done, ∀ name routine,
        splitTarget? r.target = some (name, routine) → Calls env j.object name →
          t.linked.has name = true) ⟨rfl, .of_agrees hl hbefore, by simp⟩ ?_ hcalls
    rintro done r rest k t k' t' hsplit ⟨hobject, hgathers, hdone⟩ hstep
    have hr : r ∈ j.object.relocationsOf .externalCall := by rw [hsplit]; simp
    obtain ⟨hmem, hkind⟩ := mem_relocationsOf.mp hr
    rw [← hobject] at hmem hinline
    obtain ⟨hobject', hgathers', hnew⟩ :=
      resolveCall_gathers hmem hkind hinline hgathers.closed hstep
    rw [hobject] at hgathers' hnew
    refine ⟨hobject'.trans hobject, hgathers.trans hgathers', fun r' hr' name routine => ?_⟩
    rcases List.mem_append.mp hr' with hr' | hr'
    · exact fun htarget hcalls => hgathers'.keeps name (hdone r' hr' name routine htarget hcalls)
    · rw [List.mem_singleton.mp hr']
      exact hnew name routine
  obtain ⟨-, hgathers, hheld⟩ := hround
  refine ⟨hgathers.trans (.of_agrees hgathers.closed hafter), fun name hname => ?_⟩
  obtain ⟨r, hr, hkind, routine, hsplit⟩ := hname.1
  rw [hafter.linked_eq]
  exact hheld r (mem_relocationsOf.mpr ⟨hr, hkind⟩) name routine hsplit hname

/-- An object gets into the memory after all that it calls, so that the memory stays closed. -/
theorem linkOnce_gathers {fresh : Object → LinkM Library} {name : String}
    (hfresh : ∀ o l library l', Closed env l → (fresh o).run l = (.ok library, l') →
      Gathers env (Calls env o) l l' ∧ ∀ other, Calls env o other → l'.linked.has other = true) :
    Inlines env name (linkOnce fresh name) := by
  intro l library l' hl h
  rcases run_linkOnce_eq_ok h with ⟨hmemo, rfl⟩ | ⟨o, l₁, ho, hrun, rfl⟩
  · exact ⟨.of_agrees hl ⟨rfl, rfl⟩, Dict.has_of_get? hmemo⟩
  · rw [hl.env_eq] at ho
    have hpush : Closed env { l with stack := l.stack ++ [name] } := hl.agrees ⟨rfl, rfl⟩
    obtain ⟨hgathers, hcalled⟩ := hfresh o _ library l₁ hpush hrun
    have hhas : ∀ other, (l₁.linked.put name library).has other = true ↔
        other = name ∨ l₁.linked.has other = true := fun other => Dict.has_put
    refine ⟨⟨⟨hgathers.closed.env_eq, ?_⟩, ?_, ?_⟩, (hhas name).mpr (Or.inl rfl)⟩
    · intro a other ha hneeds
      refine (hhas other).mpr (Or.inr ?_)
      rcases (hhas a).mp ha with rfl | ha
      · obtain ⟨o', ho', hcalls⟩ := hneeds
        cases ho.symm.trans ho'
        exact hcalled other hcalls
      · exact hgathers.closed.needs a other ha hneeds
    · exact fun a ha => (hhas a).mpr (Or.inr (hgathers.keeps a ha))
    · intro a ha
      rcases (hhas a).mp ha with rfl | ha
      · exact Or.inr ⟨a, rfl, .refl⟩
      · refine (hgathers.reached a ha).imp id ?_
        rintro ⟨first, hfirst, hpath⟩
        exact ⟨name, rfl, .head ⟨o, ho, hfirst⟩ hpath⟩

theorem linkInline_gathers : ∀ (fuel : Nat) (name : String),
    Inlines env name (linkInline fuel name)
  | 0, _ => linkOnce_gathers fun _ _ _ _ _ h => by cases h
  | fuel + 1, _ => linkOnce_gathers fun _ _ _ _ hl h =>
    linkWith_gathers (fun name _ => linkInline_gathers fuel name) hl h

theorem link_gathers {o : Object} {library : Library} (hl : Closed env l)
    (h : (link o).run l = (.ok library, l')) :
    Gathers env (Calls env o) l l' ∧ ∀ name, Calls env o name → l'.linked.has name = true := by
  obtain ⟨_, _, hget, h⟩ := run_bind_eq_ok h
  cases hget
  exact linkWith_gathers (fun name _ => linkInline_gathers _ name) hl h

/-- A memory that is closed and holds what an object calls holds everything that it reaches. -/
theorem Closed.has_of_reaches (hl : Closed env l) {o : Object}
    (hcalls : ∀ name, Calls env o name → l.linked.has name = true) {name : String}
    (h : Reaches env o name) : l.linked.has name = true := by
  obtain ⟨first, hfirst, hpath⟩ := h
  induction hpath with
  | refl => exact hcalls first hfirst
  | tail _ hneeds ih => exact hl.needs _ _ ih hneeds

end Gathers

end Linker

section Main
variable {env : Environment} {s : ContentId.Strategy} {objects : List Object}

/-- **What is in the memory** after objects were linked: the objects of the environment that are
reached, and no others. -/
theorem linkObjects_gathers {name : Option String} {lib : Library} {linker : Linker}
    (h : linkObjects objects env s name = (.ok lib, linker)) :
    ∃ merged, mergeObjects objects name = .ok merged ∧ linkObject merged env s = .ok lib ∧
      Closed env linker ∧ ∀ a, linker.linked.has a = true ↔ Reaches env merged a := by
  have hfst : mergeObjects objects name >>= (fun m => linkObject m env s) = .ok lib := by
    rw [← linkObjects_fst, h]
  obtain ⟨merged, hmerged, hlink⟩ := Steps.bind_eq_ok.mp hfst
  refine ⟨merged, hmerged, hlink, ?_⟩
  obtain ⟨merged', l₁, hlift, hrun⟩ := run_bind_eq_ok h
  obtain ⟨hmerged', rfl⟩ := run_lift_eq_ok hlift
  cases hmerged.symm.trans hmerged'
  have hcalls : Gathers env (Calls env merged) { env, strategy := s } linker ∧
      ∀ a, Calls env merged a → linker.linked.has a = true := by
    have hnew := closed_new env s
    split_ifs at hrun
    · obtain ⟨_, l₂, hrecord, hrun⟩ := run_bind_eq_ok hrun
      have hagrees := run_record_eq_ok hrecord
      obtain ⟨hgathers, hheld⟩ := link_gathers (hnew.agrees hagrees) hrun
      exact ⟨(Gathers.of_agrees hnew hagrees).trans hgathers, hheld⟩
    · exact link_gathers hnew hrun
  obtain ⟨hgathers, hheld⟩ := hcalls
  refine ⟨hgathers.closed, fun a => ⟨fun ha => ?_, hgathers.closed.has_of_reaches hheld⟩⟩
  rcases hgathers.reached a ha with hempty | hreached
  · simp [Dict.has] at hempty
  · exact hreached

/-- A library that is named is one of the environment or that of an object that is called. -/
theorem source_of_mem_libraries {o : Object} {lib : Library} (henv : env.Filed)
    (hs : s ∈ ContentId.Strategy.known) (h : linkObject o env s = .ok lib) {id : String}
    (hid : id ∈ lib.libraries) : (∃ x ∈ env.libraries, x.2.id = id) ∨
      ∃ name d l, Calls env o name ∧ env.objects.get? name = some d ∧
        linkObject d env s = .ok l ∧ l.id = id := by
  obtain ⟨-, j, hlists, hlibrary⟩ := exists_lists h
  rw [libraries_of_lists henv hs hlists hlibrary, hlists.libraries] at hid
  obtain ⟨c, hc, rfl⟩ := hid
  obtain ⟨r, hr, -, name, routine, l, hsplit, hresolves⟩ :=
    Steps.exists_mem_left hlists.entries c hc
  obtain ⟨hmem, hkind⟩ := mem_relocationsOf.mp hr
  rw [hresolves.library]
  have hlisted : ∀ {key : String}, env.library? key = some l →
      ∃ x ∈ env.libraries, x.2.id = l.id := by
    intro key hkey
    obtain ⟨normal, -, -, hnormal⟩ := Environment.mem_of_library? hkey
    exact ⟨_, hnormal, rfl⟩
  cases hresolves.found with
  | pinned _ listed => exact Or.inl (hlisted listed)
  | aliased _ _ listed => exact Or.inl (hlisted listed)
  | direct _ _ _ listed => exact Or.inl (hlisted listed)
  | inline unpinned unaliased object linked =>
    have hcalls : Calls env o name := ⟨⟨r, hmem, hkind, routine, hsplit⟩,
      known?_eq_none.mpr ⟨unpinned, unaliased⟩, Dict.has_of_get? object⟩
    exact Or.inr ⟨name, _, l, hcalls, object, linked, rfl⟩

end Main

/-- **What is linked comes with its dependencies.** If objects are linked, then every library that
the result names, and every library that an object linked on the way names, is one of the
environment or of an object linked on the way. Those objects are the ones that the merged object
leads to, each with the library that it gives on its own. -/
theorem linkObjects_closed {objects : List Object} {env : Environment} {s : ContentId.Strategy}
    {name : Option String} {lib : Library} {linker : Linker} (henv : env.Made)
    (hs : s ∈ ContentId.Strategy.known)
    (h : linkObjects objects env s name = (.ok lib, linker)) :
    ∃ merged, mergeObjects objects name = .ok merged ∧
      (∀ l, (l = lib ∨ ∃ a, (a, l) ∈ linker.linked) → ∀ id ∈ l.libraries,
        (∃ x ∈ env.libraries, x.2.id = id) ∨ ∃ x ∈ linker.linked, x.2.id = id) ∧
      (∀ x ∈ linker.linked, ∃ o, env.objects.get? x.1 = some o ∧ linkObject o env s = .ok x.2) ∧
      ∀ a, (∃ x ∈ linker.linked, x.1 = a) ↔ Reaches env merged a := by
  obtain ⟨merged, hmerged, hlink, hclosed, hreached⟩ := linkObjects_gathers h
  have hlinked : ∀ x ∈ linker.linked,
      ∃ o, env.objects.get? x.1 = some o ∧ linkObject o env s = .ok x.2 := by
    intro x hx
    refine linkObject_of_mem_linked (?_ : x ∈ (linkObjects objects env s name).2.linked)
    rw [h]
    exact hx
  refine ⟨merged, hmerged, ?_, hlinked, fun a => ?_⟩
  · -- A library comes from an object whose calls are all in the memory.
    intro l hl id hid
    obtain ⟨o, ho, hcalls⟩ : ∃ o, linkObject o env s = .ok l ∧
        ∀ a, Calls env o a → linker.linked.has a = true := by
      rcases hl with rfl | ⟨a, ha⟩
      · exact ⟨merged, hlink, fun a ha => (hreached a).mpr ⟨a, ha, .refl⟩⟩
      · obtain ⟨o, ho, hlink'⟩ := hlinked _ ha
        exact ⟨o, hlink', fun other hother =>
          hclosed.needs a other (Dict.has_iff.mpr ⟨_, ha, rfl⟩) ⟨o, ho, hother⟩⟩
    refine (source_of_mem_libraries henv.filed hs ho hid).imp (fun hlisted => hlisted) ?_
    rintro ⟨a, d, l', hcall, hd, hl', rfl⟩
    obtain ⟨x, hx, rfl⟩ := Dict.has_iff.mp (hcalls a hcall)
    obtain ⟨d', hd', hx'⟩ := hlinked x hx
    cases hd.symm.trans hd'
    cases hl'.symm.trans hx'
    exact ⟨x, hx, rfl⟩
  · rw [← hreached, Dict.has_iff]

/-- An environment with a library, an object that calls it, and one that calls that object. -/
def Environment.stairs : Environment :=
  ((({} : Environment).addLibrary .pinned (some "lib")).addObject "a"
    (.calling "f" "b.g")).addObject "b" (.calling "g" "lib.run")

theorem linkObjects_closed_of_stairs :
    let objects := [Object.calling "x" "a.f", { Object.calling "y" "" with relocations := [] }]
    ∃ merged lib linker, linkObjects objects .stairs = (.ok lib, linker) ∧
      mergeObjects objects = .ok merged ∧ linker.linked.map (·.1) = ["b", "a"] ∧
      (∀ l, (l = lib ∨ ∃ a, (a, l) ∈ linker.linked) → ∀ id ∈ l.libraries,
        (∃ x ∈ Environment.stairs.libraries, x.2.id = id) ∨ ∃ x ∈ linker.linked, x.2.id = id) ∧
      Reaches .stairs merged "b" := by
  intro objects
  have hrun : (linkObjects objects .stairs).1.isOk = true ∧
      (linkObjects objects .stairs).2.linked.map (·.1) = ["b", "a"] := by decide +kernel
  rcases h : linkObjects objects .stairs with ⟨outcome, linker⟩
  rw [h] at hrun
  obtain ⟨hok, hnames⟩ := hrun
  obtain ⟨lib, rfl⟩ := Steps.exists_of_isOk hok
  have henv : Environment.stairs.Made :=
    .addObject (.addObject (.addLibrary (.of (rfl : Environment.of [] [] [] = .ok {})) _ _) _ _) _ _
  obtain ⟨merged, hmerged, hclosed, -, hreached⟩ :=
    linkObjects_closed henv List.mem_cons_self h
  have hb : "b" ∈ linker.linked.map (·.1) := by rw [hnames]; exact List.mem_cons_self
  exact ⟨merged, lib, linker, rfl, hmerged, hnames, hclosed,
    (hreached "b").mp (List.mem_map.mp hb)⟩

end AluVM
