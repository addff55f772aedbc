import AluVM.Proofs.CallTable
import AluVM.Proofs.ContentAddress

/-! # The files of linked objects

The call table of a library names libraries by their ids, and its file by their places in the list
of libraries. Between the two stands a normal form: the list is brought into normal form when the
library is built, the table is not. Both agree because every library that the linker finds has a
canonical id (`Found.canonical`): those of an environment are filed under their ids and looked up
by normal forms (`Environment.Made.filed`), and an object that is linked on the spot gets the id of
its content. So a linked object can be verified, and it can be read from its file. -/

namespace AluVM

open Linker

/-! ### Environments -/

namespace Environment

/-- **An environment as it is made**: from libraries, aliases and objects, and by adding further
ones. -/
inductive Made : Environment → Prop where
  | of {libraries : List Library} {aliases : List (String × String)}
      {objects : List (String × Object)} {mask : Mask} {env : Environment}
      (h : Environment.of libraries aliases objects mask = .ok env) : Made env
  | addLibrary {env : Environment} (h : Made env) (l : Library) (name : Option String) :
      Made (env.addLibrary l name)
  | addObject {env : Environment} (h : Made env) (name : String) (o : Object) :
      Made (env.addObject name o)

/-- Every library is filed under its id. -/
def Filed (env : Environment) : Prop := ∀ x ∈ env.libraries, x.2.id = x.1

theorem Filed.addLibrary {env : Environment} (h : env.Filed) (l : Library) (name : Option String) :
    (env.addLibrary l name).Filed := by
  intro x hx
  rcases Dict.mem_put hx with rfl | hx
  · rfl
  · exact h x hx

theorem Filed.foldl_addLibrary {env : Environment} (h : env.Filed) (libraries : List Library) :
    (libraries.foldl (fun e l => e.addLibrary l) env).Filed := by
  induction libraries generalizing env with
  | nil => exact h
  | cons l libraries ih => exact ih (h.addLibrary l none)

theorem Made.filed {env : Environment} (h : env.Made) : env.Filed := by
  induction h with
  | of h =>
    obtain ⟨aliases, -, h⟩ := Steps.bind_eq_ok.mp h
    rw [← Except.ok.inj h]
    refine Filed.foldl_addLibrary ?_ _
    exact fun x hx => absurd hx List.not_mem_nil
  | addLibrary _ l name ih => exact ih.addLibrary l name
  | addObject _ _ _ ih => exact ih

end Environment

/-! ### Ids in the call table -/

theorem ContentId.Strategy.named_name {s : Strategy} (hs : s ∈ known) : named s.name = .ok s := by
  simp only [known, List.mem_cons, List.not_mem_nil, or_false] at hs
  rcases hs with rfl | rfl <;> rfl

/-- What has the id of its content is verified. -/
theorem Library.Addressed.verify {s : ContentId.Strategy} {l : Library} (h : Addressed s l) :
    l.verify = .ok true := by
  obtain ⟨hs, content, hcontent, hid⟩ := h.contentId
  refine verify_eq_ok_true.mpr ⟨s, content, ?_, hcontent, hid⟩
  rw [ContentId.strategyOf, s.split?_contentId hs hid]
  exact ContentId.Strategy.named_name hs

section Link
variable {env : Environment} {s : ContentId.Strategy} {o : Object} {name : String} {l : Library}

/-- **A library that is found has a canonical id.** -/
theorem Found.canonical (henv : env.Filed) (hs : s ∈ ContentId.Strategy.known)
    (h : Found env s o name l) : ContentId.Canonical l.id := by
  rcases h.source with ⟨id, hlisted⟩ | ⟨d, -, hlinked⟩
  · obtain ⟨normal, hid, hnormal, hmem⟩ := Environment.mem_of_library? hlisted
    rw [henv _ hmem]
    exact ContentId.canonical_of_isId hid hnormal
  · exact (Library.canonical_of_verify (Library.Addressed.linked hs hlinked).verify).2

/-- The list of libraries holds the ids of the call table as they are. -/
theorem libraries_of_lists (henv : env.Filed) (hs : s ∈ ContentId.Strategy.known)
    {calls : List Relocation} {j : Job} {lib : Library} (hj : Lists env s o calls j)
    (h : j.library s = .ok lib) : lib.libraries = j.libraries := by
  have hcanonical : ∀ id ∈ j.libraries, ContentId.Canonical id := by
    intro id hid
    obtain ⟨c, hc, rfl⟩ := (hj.libraries id).mp hid
    obtain ⟨r, -, -, name, routine, l, -, hresolves⟩ := Steps.exists_mem_left hj.entries c hc
    rw [hresolves.library]
    exact hresolves.found.canonical henv hs
  -- The list is brought into normal form when the library is built, which changes nothing.
  have hnormal : j.libraries.mapM ContentId.normalize = .ok j.libraries :=
    Steps.mapM_eq_ok.mpr (List.forall₂_same.mpr fun id hid => (hcanonical id hid).normalize_eq)
  exact Except.ok.inj ((library_eq_ok h).1.symm.trans hnormal)

end Link

/-- **A linked object is verified and survives its file.** Its id is that of its content, every call
names a library of the list, and what is written is read as the same library, its call table
included. -/
theorem linked_verifies_and_survives {env : Environment} {s : ContentId.Strategy} {o : Object}
    {lib : Library} (henv : env.Made) (hs : s ∈ ContentId.Strategy.known)
    (hentry : o.entry ≠ some (Wire.noEntry : Int)) (h : linkObject o env s = .ok lib) :
    lib.verify = .ok true ∧ (∀ c ∈ lib.calls, c.library ∈ lib.libraries) ∧
      ∀ raw, lib.toBytes = .ok raw → Library.ofBytes raw = .ok lib := by
  have hverify := (Library.Addressed.linked hs h).verify
  obtain ⟨-, j, hlists, hlibrary⟩ := exists_lists h
  obtain ⟨-, -, -, -, hlibentry, hcalls⟩ := library_eq_ok hlibrary
  rw [hlists.object] at hlibentry
  refine ⟨hverify, fun c hc => ?_, fun raw hraw => ?_⟩
  · rw [libraries_of_lists henv.filed hs hlists hlibrary]
    rw [hcalls] at hc
    exact (hlists.libraries c.library).mpr ⟨c, hc, rfl⟩
  · exact Library.ofBytes_of_toBytes hverify (hlibentry ▸ hentry) hraw

theorem linked_survives_of_pinning : ∃ lib raw,
    linkObject .pinning (Environment.addLibrary {} .pinned) = .ok lib ∧ lib.calls.length = 1 ∧
      lib.verify = .ok true ∧ (∀ c ∈ lib.calls, c.library ∈ lib.libraries) ∧
      lib.toBytes = .ok raw ∧ Library.ofBytes raw = .ok lib := by
  obtain ⟨⟨lib, raw⟩, hboth⟩ := Steps.exists_of_isOk (by decide +kernel : (do
    let lib ← linkObject .pinning (Environment.addLibrary {} .pinned)
    return (lib, ← lib.toBytes) : Except Failure (Library × Bytes)).isOk = true)
  obtain ⟨lib', hlib, hboth⟩ := Steps.bind_eq_ok.mp hboth
  obtain ⟨raw', hraw, hboth⟩ := Steps.bind_eq_ok.mp hboth
  cases hboth
  have henv : (Environment.addLibrary {} .pinned).Made :=
    .addLibrary (.of (rfl : Environment.of [] [] [] = .ok {})) .pinned none
  obtain ⟨hverify, hcalls, hread⟩ :=
    linked_verifies_and_survives henv List.mem_cons_self (by decide) hlib
  obtain ⟨-, j, hlists, hlibrary⟩ := exists_lists hlib
  have hlength : lib.calls.length = 1 := by
    rw [(library_eq_ok hlibrary).2.2.2.2.2, ← hlists.entries.length_eq]
    decide +kernel
  exact ⟨lib, raw, hlib, hlength, hverify, hcalls, hraw, hread raw hraw⟩

end AluVM
