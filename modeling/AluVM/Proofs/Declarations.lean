import AluVM.Analysis
import Mathlib.Data.List.Induction
import Mathlib.Data.List.Nodup
import Mathlib.Data.List.Pairwise

/-! # Declarations

What the passes over a program share: tables in which a name stands for one symbol, and findings
that are gathered in order.

* `SymbolTable.Distinct`: no two symbols have one name in one namespace. Declaring keeps this
  (`declare_distinct`), and a member is known by its name (`Distinct.eq_of_mem`).
* `Clean`: findings without an error. `gather_induction` is the induction along a pass that finds
  no error, with the elements already done as the argument of the invariant. `clean_gather_iff` says
  when a pass finds none: a step is judged by the elements before it. -/

namespace AluVM

namespace SymbolTable

/-- Two symbols that do not have one name in one namespace. -/
def Apart (a b : Symbol) : Prop := ¬ (a.kind.space = b.kind.space ∧ a.name = b.name)

/-- No two symbols have one name in one namespace. -/
def Distinct (t : SymbolTable) : Prop := t.newestFirst.Pairwise Apart

instance : Std.Symm Apart := ⟨fun _ _ h ⟨hs, hn⟩ => h ⟨hs.symm, hn.symm⟩⟩

theorem isAt_iff {space : Namespace} {name : String} {s : Symbol} :
    s.isAt space name = true ↔ s.kind.space = space ∧ s.name = name := by
  simp [Symbol.isAt]

theorem get?_eq_none_iff {t : SymbolTable} {space : Namespace} {name : String} :
    t.get? space name = none ↔ ∀ s ∈ t.newestFirst, ¬ (s.kind.space = space ∧ s.name = name) := by
  simp only [get?, List.find?_eq_none, isAt_iff]

theorem mem_of_get? {t : SymbolTable} {space : Namespace} {name : String} {s : Symbol}
    (h : t.get? space name = some s) :
    s ∈ t.newestFirst ∧ s.kind.space = space ∧ s.name = name :=
  ⟨List.mem_of_find?_eq_some h, isAt_iff.mp (List.find?_some h)⟩

theorem declare_of_free {t : SymbolTable} {s : Symbol} (h : t.get? s.kind.space s.name = none) :
    t.declare s = ⟨s :: t.newestFirst⟩ := by
  rw [declare, h]

theorem distinct_cons {t : SymbolTable} {s : Symbol} (ht : t.Distinct)
    (h : t.get? s.kind.space s.name = none) : Distinct ⟨s :: t.newestFirst⟩ := by
  refine List.pairwise_cons.mpr ⟨fun b hb hsb => ?_, ht⟩
  exact get?_eq_none_iff.mp h b hb ⟨hsb.1.symm, hsb.2.symm⟩

theorem declare_distinct {t : SymbolTable} {s : Symbol} (ht : t.Distinct) :
    (t.declare s).Distinct := by
  unfold declare
  split
  · exact ht
  · next h => exact distinct_cons ht h

theorem Distinct.eq_of_mem {t : SymbolTable} (ht : t.Distinct) {a b : Symbol}
    (ha : a ∈ t.newestFirst) (hb : b ∈ t.newestFirst) (hs : a.kind.space = b.kind.space)
    (hn : a.name = b.name) : a = b := by
  by_contra hne
  exact List.Pairwise.forall ht ha hb hne ⟨hs, hn⟩

theorem Distinct.get?_eq_some {t : SymbolTable} (ht : t.Distinct) {space : Namespace}
    {name : String} {s : Symbol} : t.get? space name = some s ↔
      s ∈ t.newestFirst ∧ s.kind.space = space ∧ s.name = name := by
  refine ⟨mem_of_get?, ?_⟩
  rintro ⟨hs, rfl, rfl⟩
  rcases h : t.get? s.kind.space s.name with _ | s'
  · exact absurd ⟨rfl, rfl⟩ (get?_eq_none_iff.mp h s hs)
  · obtain ⟨hs', hspace, hname⟩ := mem_of_get? h
    rw [ht.eq_of_mem hs' hs hspace hname]

end SymbolTable

namespace Analysis

/-! ### Findings -/

/-- There is no error among the findings. -/
def Clean (found : List Finding) : Prop := ∀ f ∈ found, f.isError = false

@[simp] theorem clean_nil : Clean [] := by simp [Clean]

@[simp] theorem clean_append {xs ys : List Finding} : Clean (xs ++ ys) ↔ Clean xs ∧ Clean ys := by
  simp [Clean, or_imp, forall_and]

@[simp] theorem clean_cons {f : Finding} {fs : List Finding} :
    Clean (f :: fs) ↔ f.isError = false ∧ Clean fs := by
  simp [Clean]

theorem ok_iff_clean {a : Analysis} : a.ok = true ↔ Clean a.findings := by
  simp [ok, Clean]

section Gather
variable {σ α : Type} {step : σ → α → σ × List Finding}

theorem gather_from (step : σ → α → σ × List Finding) (s : σ) (found : List Finding) :
    ∀ xs : List α,
    xs.foldl (fun (p : σ × List Finding) x => ((step p.1 x).1, (step p.1 x).2.reverse ++ p.2))
      (s, found) = ((gather step s xs).1, (gather step s xs).2.reverse ++ found) := by
  intro xs
  induction xs generalizing s found with
  | nil => rfl
  | cons x xs ih =>
    have hnil := ih (step s x).1 ((step s x).2.reverse ++ [])
    simp only [gather, List.foldl_cons] at ih hnil ⊢
    rw [ih, hnil]
    simp

@[simp] theorem gather_nil (s : σ) : gather step s [] = (s, []) := rfl

theorem gather_cons (s : σ) (x : α) (xs : List α) :
    gather step s (x :: xs) = ((gather step (step s x).1 xs).1,
      (step s x).2 ++ (gather step (step s x).1 xs).2) := by
  have h := gather_from step (step s x).1 ((step s x).2.reverse ++ []) xs
  simp only [gather, List.foldl_cons] at h ⊢
  rw [h]
  simp

theorem gather_append (s : σ) : ∀ xs ys : List α,
    gather step s (xs ++ ys) = ((gather step (gather step s xs).1 ys).1,
      (gather step s xs).2 ++ (gather step (gather step s xs).1 ys).2) := by
  intro xs
  induction xs generalizing s with
  | nil => intro ys; simp
  | cons x xs ih => intro ys; simp [gather_cons, ih]

/-- **Induction along a pass without errors.** -/
theorem gather_induction (R : List α → σ → Prop) {xs : List α} {s : σ} (h0 : R [] s)
    (hstep : ∀ done x rest s', xs = done ++ x :: rest → R done s' → Clean (step s' x).2 →
      R (done ++ [x]) (step s' x).1)
    (h : Clean (gather step s xs).2) : R xs (gather step s xs).1 := by
  suffices key : ∀ (rest done : List α) (s' : σ), xs = done ++ rest → R done s' →
      Clean (gather step s' rest).2 → R xs (gather step s' rest).1 from key xs [] s rfl h0 h
  intro rest
  induction rest with
  | nil =>
    intro done s' hxs hR _
    rw [List.append_nil] at hxs
    rw [hxs]
    exact hR
  | cons x rest ih =>
    intro done s' hxs hR hc
    rw [gather_cons, clean_append] at hc
    rw [gather_cons]
    exact ih (done ++ [x]) _ (by simp [hxs]) (hstep done x rest s' hxs hR hc.1) hc.2

theorem gather_frame {β : Type} (f : σ → β) (h : ∀ s x, f (step s x).1 = f s) (s : σ)
    (xs : List α) : f (gather step s xs).1 = f s := by
  induction xs generalizing s with
  | nil => rfl
  | cons x xs ih =>
    rw [gather_cons]
    exact (ih (step s x).1).trans (h s x)

/-- The places in a list with one more element: those before it, and its own. -/
theorem forall_split_concat {Q : List α → α → Prop} {xs : List α} {x : α} :
    (∀ done y rest, xs ++ [x] = done ++ y :: rest → Q done y) ↔
      (∀ done y rest, xs = done ++ y :: rest → Q done y) ∧ Q xs x := by
  constructor
  · intro h
    exact ⟨fun done y rest hxs => h done y (rest ++ [x]) (by simp [hxs]), h xs x [] rfl⟩
  · rintro ⟨hxs, hx⟩ done y rest hsplit
    rcases List.eq_nil_or_concat rest with rfl | ⟨rest', z, rfl⟩
    · obtain ⟨rfl, heq⟩ := List.append_inj' hsplit rfl
      cases heq
      exact hx
    · have hsplit' : xs ++ [x] = (done ++ y :: rest') ++ [z] := by simpa using hsplit
      exact hxs done y rest' (List.append_inj' hsplit' rfl).1

theorem forall_split_iff_forall_mem {P : α → Prop} {xs : List α} :
    (∀ done x rest, xs = done ++ x :: rest → P x) ↔ ∀ x ∈ xs, P x := by
  constructor
  · intro h x hx
    obtain ⟨done, rest, hxs⟩ := List.append_of_mem hx
    exact h done x rest hxs
  · rintro h done x rest rfl
    exact h x (by simp)

theorem nodup_filterMap_iff {β : Type} {f : α → Option β} {xs : List α} :
    (xs.filterMap f).Nodup ↔
      ∀ done x rest, xs = done ++ x :: rest → ∀ y ∈ f x, y ∉ done.filterMap f := by
  induction xs using List.reverseRecOn with
  | nil => simp
  | append_singleton xs x ih =>
    rw [forall_split_concat, ← ih, List.filterMap_append]
    rcases hx : f x with _ | y
    · simp [hx]
    · have hlast : [x].filterMap f = [y] := by simp [hx]
      rw [hlast, ← List.concat_eq_append, List.nodup_concat, and_comm]
      simp

theorem nodup_map_iff {β : Type} {f : α → β} {xs : List α} :
    (xs.map f).Nodup ↔ ∀ done x rest, xs = done ++ x :: rest → f x ∉ done.map f := by
  rw [← List.filterMap_eq_map, nodup_filterMap_iff]
  simp

/-- **A pass finds no error** exactly if no step does, each after steps that find none. -/
theorem clean_gather_iff {Q : List α → α → Prop} {s : σ} {xs : List α}
    (hstep : ∀ done x rest, xs = done ++ x :: rest → Clean (gather step s done).2 →
      (Clean (step (gather step s done).1 x).2 ↔ Q done x)) :
    Clean (gather step s xs).2 ↔ ∀ done x rest, xs = done ++ x :: rest → Q done x := by
  induction xs using List.reverseRecOn with
  | nil => simp
  | append_singleton xs x ih =>
    have hxs := ih fun done y rest hsplit => hstep done y (rest ++ [x]) (by simp [hsplit])
    rw [forall_split_concat, ← hxs, gather_append, clean_append, gather_cons]
    simp only [gather_nil, List.append_nil]
    exact and_congr_right (hstep xs x [] rfl)

end Gather

end Analysis

end AluVM
