import AluVM.Files.Tree
import AluVM.Manifest
import AluVM.Proofs.Layout
import AluVM.Proofs.Linking

/-! # The environment of a manifest

A manifest names files, and its environment is made from what they hold (`Environment.Loaded`).
The environment is the work of a tool on a tree of files. Such work may fail at any file, and it
writes a log; `Tool.Gives` says of it what holds of its result, whatever the tree and the console
are, and goes along the steps of the work. -/

namespace AluVM

open Steps

/-! ### The work of a tool -/

namespace Tool

variable {α β σ : Type} {P : α → Prop} {Q : β → Prop}

/-- What the work of a tool comes to on a tree of files. -/
def resultOn (x : Tool (StateM FileTree) α) (console : Console) (tree : FileTree) :
    Except Failure α :=
  ((x.run console).run tree).1.1

/-- Whatever the work of a tool comes to has a property. -/
def Gives (P : α → Prop) (x : Tool (StateM FileTree) α) : Prop :=
  ∀ console tree a, resultOn x console tree = .ok a → P a

theorem Gives.any (x : Tool (StateM FileTree) α) : Gives (fun _ => True) x :=
  fun _ _ _ _ => trivial

theorem Gives.pure {a : α} (h : P a) : Gives P (Pure.pure a : Tool (StateM FileTree) α) := by
  intro console tree b hb
  rwa [← Except.ok.inj hb]

theorem Gives.lift {x : Except Failure α} (h : ∀ a, x = .ok a → P a) :
    Gives P (Tool.lift x : Tool (StateM FileTree) α) := by
  rcases x with e | a
  · intro console tree b hb
    cases hb
  · exact Gives.pure (h a rfl)

theorem resultOn_bind {x : Tool (StateM FileTree) α} (f : α → Tool (StateM FileTree) β)
    {console console' : Console} {tree tree' : FileTree} {r : Except Failure α}
    (h : (x.run console).run tree = ((r, console'), tree')) :
    resultOn (x >>= f) console tree = r >>= fun a => resultOn (f a) console' tree' := by
  have hrun : x console tree = ((r, console'), tree') := h
  show ((ExceptT.bind x f console) tree).1.1 = _
  simp only [ExceptT.bind, ExceptT.mk, bind, StateT.bind, hrun]
  rcases r with e | a <;> rfl

theorem Gives.bind {x : Tool (StateM FileTree) α} {f : α → Tool (StateM FileTree) β}
    (hx : Gives P x) (hf : ∀ a, P a → Gives Q (f a)) : Gives Q (x >>= f) := by
  intro console tree b hb
  rcases hrun : (x.run console).run tree with ⟨⟨r, console'⟩, tree'⟩
  rw [resultOn_bind f hrun] at hb
  obtain ⟨a, rfl, hb⟩ := bind_eq_ok.mp hb
  have ha : P a := hx console tree a (by rw [resultOn, hrun])
  exact hf a ha console' tree' b hb

theorem Gives.foldlM {f : α → σ → Tool (StateM FileTree) α} : ∀ {xs : List σ} {a : α}, P a →
    (∀ x ∈ xs, ∀ t, P t → Gives P (f t x)) → Gives P (xs.foldlM f a)
  | [], _, h0, _ => Gives.pure h0
  | x :: xs, a, h0, hstep => by
    rw [List.foldlM_cons]
    refine (hstep x List.mem_cons_self a h0).bind fun t ht => ?_
    exact Gives.foldlM ht fun y hy => hstep y (List.mem_cons_of_mem x hy)

end Tool

/-! ### Environments -/

/-- **An environment that was made from files.** -/
structure Environment.Loaded (env : Environment) : Prop where
  mask : env.mask.Known
  objects : ∀ x ∈ env.objects, ∃ raw, Object.ofBytes raw = .ok x.2
  libraries : ∀ x ∈ env.libraries, ∃ raw, Library.ofBytes raw = .ok x.2

section Loaded
variable {env : Environment}

theorem Environment.Loaded.addLibrary (h : env.Loaded) {raw : Bytes} {l : Library}
    (hl : Library.ofBytes raw = .ok l) : (env.addLibrary l).Loaded := by
  refine ⟨h.mask, h.objects, fun x hx => ?_⟩
  rcases Dict.mem_put hx with rfl | hx
  · exact ⟨raw, hl⟩
  · exact h.libraries x hx

theorem Environment.Loaded.addObject (h : env.Loaded) {raw : Bytes} {o : Object}
    (ho : Object.ofBytes raw = .ok o) (name : String) : (env.addObject name o).Loaded := by
  refine ⟨h.mask, fun x hx => ?_, h.libraries⟩
  rcases Dict.mem_put hx with rfl | hx
  · exact ⟨raw, ho⟩
  · exact h.objects x hx

end Loaded

theorem Mask.known_of_ofNames {names : List String} {m : Mask} (h : ofNames names = .ok m) :
    m.Known := by
  refine foldlM_induction (fun _ m => Known m) (known_bit .alu) ?_ h
  intro done name rest m m' _ hm hstep
  unfold addName at hstep
  split at hstep
  · rename_i e _
    rw [← Except.ok.inj hstep]
    exact hm.union (known_bit e)
  · cases hstep

namespace Manifest

open Tool

variable (c : Manifest)

theorem known_of_mask {c : Manifest} {m : Mask} (h : c.mask = .ok m) : m.Known := by
  unfold mask at h
  split at h
  · rw [← Except.ok.inj h]
    exact ⟨15, by decide, rfl⟩
  · exact Mask.known_of_ofNames (mapError_ok_iff.mp h)

theorem addLibrary_gives {env : Environment} (h : env.Loaded) (path : String) :
    Gives Environment.Loaded (addLibrary c env path) := by
  refine (Gives.any _).bind fun content _ => ?_
  refine (Gives.lift fun l (hl : Library.ofBytes content = .ok l) => hl).bind fun l hl => ?_
  exact (Gives.any _).bind fun _ _ => Gives.pure (h.addLibrary hl)

theorem addObject_gives {env : Environment} (h : env.Loaded) (name path : String) :
    Gives Environment.Loaded (addObject c env name path) := by
  refine (Gives.any _).bind fun _ _ => (Gives.any _).bind fun content _ => ?_
  refine (Gives.lift fun o ho => mapError_ok_iff.mp ho).bind fun o ho => ?_
  exact Gives.pure (h.addObject ho name)

/-- **The environment of a manifest is made from files.** -/
theorem environment_gives : Gives Environment.Loaded c.environment := by
  refine (Gives.any _).bind fun aliases _ => ?_
  refine (Gives.lift fun m hm => mapError_ok_iff.mp hm).bind fun m hm => ?_
  have hstart : ({ aliases, mask := m } : Environment).Loaded :=
    ⟨known_of_mask hm, by simp, by simp⟩
  refine (Gives.foldlM hstart fun path _ env henv => c.addLibrary_gives henv path).bind
    fun env henv => ?_
  exact Gives.foldlM henv fun x _ env henv => c.addObject_gives henv x.1 x.2

end Manifest

end AluVM
