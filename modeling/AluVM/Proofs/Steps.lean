import Mathlib.Data.List.Forall2

/-! # Steps that may fail

Every stage after the reading of a text is a sequence of steps in `Except`. A successful sequence
is taken apart here: `bind_eq_ok` for two steps, `mapM_eq_ok` for one step an element, and
`foldlM_induction` for steps that change a state, with the elements already done as the argument
of the invariant. `Yields` says of a sequence that need not succeed what it may come to, and `Both`
of two sequences that they succeed with related results or fail together. -/

namespace AluVM.Steps

variable {ε ε' α β σ : Type}

theorem bind_eq_ok {x : Except ε α} {f : α → Except ε β} {b : β} :
    (x >>= f) = .ok b ↔ ∃ a, x = .ok a ∧ f a = .ok b := by
  rcases x with e | a <;> simp [bind, Except.bind]

theorem map_eq_ok {x : Except ε α} {f : α → β} {b : β} :
    (f <$> x) = .ok b ↔ ∃ a, x = .ok a ∧ f a = b := by
  rcases x with e | a <;> simp [Functor.map, Except.map]

theorem exists_of_isOk {x : Except ε α} (h : x.isOk = true) : ∃ a, x = .ok a := by
  rcases x with e | a
  · cases h
  · exact ⟨a, rfl⟩

theorem mapError_ok_iff {x : Except ε α} {f : ε → ε'} {a : α} :
    x.mapError f = .ok a ↔ x = .ok a := by
  rcases x with e | a' <;> simp [Except.mapError]

theorem toOption_eq_some {x : Except ε α} {a : α} : x.toOption = some a ↔ x = .ok a := by
  rcases x with e | b
  · simp [Except.toOption]
  · simp [Except.toOption]

theorem mapM_eq_ok {f : α → Except ε β} : ∀ {xs : List α} {ys : List β},
    xs.mapM f = .ok ys ↔ List.Forall₂ (fun x y => f x = .ok y) xs ys
  | [], ys => by
    simp only [List.mapM_nil, List.forall₂_nil_left_iff]
    exact ⟨fun h => (Except.ok.inj h).symm, fun h => h ▸ rfl⟩
  | x :: xs, ys => by
    simp only [List.mapM_cons, bind_eq_ok, List.forall₂_cons_left_iff]
    constructor
    · rintro ⟨y, hy, ys', hys, h⟩
      exact ⟨y, ys', hy, mapM_eq_ok.mp hys, (Except.ok.inj h).symm⟩
    · rintro ⟨y, ys', hy, hys, rfl⟩
      exact ⟨y, hy, ys', mapM_eq_ok.mpr hys, rfl⟩

theorem exists_mem_left {R : α → β → Prop} {xs : List α} {ys : List β} (h : List.Forall₂ R xs ys) :
    ∀ y ∈ ys, ∃ x ∈ xs, R x y := by
  induction h with
  | nil => simp
  | cons hxy _ ih =>
    intro y hy
    rcases List.mem_cons.mp hy with rfl | hy
    · exact ⟨_, List.mem_cons_self, hxy⟩
    · obtain ⟨x, hx, hR⟩ := ih y hy
      exact ⟨x, List.mem_cons_of_mem _ hx, hR⟩

theorem exists_mem_right {R : α → β → Prop} {xs : List α} {ys : List β}
    (h : List.Forall₂ R xs ys) : ∀ x ∈ xs, ∃ y ∈ ys, R x y :=
  exists_mem_left h.flip

theorem forall₂_imp_mem {R S : α → β → Prop} {xs : List α} {ys : List β}
    (h : List.Forall₂ R xs ys) (hRS : ∀ x ∈ xs, ∀ y ∈ ys, R x y → S x y) :
    List.Forall₂ S xs ys := by
  induction h with
  | nil => exact .nil
  | cons hxy _ ih =>
    refine .cons (hRS _ List.mem_cons_self _ List.mem_cons_self hxy) (ih fun x hx y hy => ?_)
    exact hRS x (List.mem_cons_of_mem _ hx) y (List.mem_cons_of_mem _ hy)

/-- Two relations one after the other, element by element. -/
theorem forall₂_comp {γ : Type} {R : α → β → Prop} {S : β → γ → Prop} {xs : List α} {zs : List γ} :
    List.Forall₂ (fun x z => ∃ y, R x y ∧ S y z) xs zs ↔
      ∃ ys, List.Forall₂ R xs ys ∧ List.Forall₂ S ys zs := by
  induction xs generalizing zs with
  | nil => simp
  | cons x xs ih =>
    simp only [List.forall₂_cons_left_iff, ih]
    constructor
    · rintro ⟨z, zs, ⟨y, hxy, hyz⟩, ⟨ys, hxs, hzs⟩, rfl⟩
      exact ⟨y :: ys, ⟨y, ys, hxy, hxs, rfl⟩, .cons hyz hzs⟩
    · rintro ⟨-, ⟨y, ys, hxy, hxs, rfl⟩, hyzs⟩
      obtain ⟨z, zs', hyz, hzs, rfl⟩ := List.forall₂_cons_left_iff.mp hyzs
      exact ⟨z, zs', ⟨y, hxy, hyz⟩, ⟨ys, hxs, hzs⟩, rfl⟩

theorem getElem?_of_forall₂ {R : α → β → Prop} {xs : List α} {ys : List β}
    (h : List.Forall₂ R xs ys) {k : Nat} {x : α} (hx : xs[k]? = some x) :
    ∃ y, ys[k]? = some y ∧ R x y := by
  induction h generalizing k with
  | nil => cases hx
  | cons hxy _ ih =>
    rcases k with _ | k
    · cases hx
      exact ⟨_, rfl, hxy⟩
    · exact ih hx

theorem exists_forall₂ {R : α → β → Prop} : ∀ {xs : List α}, (∀ x ∈ xs, ∃ y, R x y) →
    ∃ ys, List.Forall₂ R xs ys
  | [], _ => ⟨[], .nil⟩
  | x :: xs, h => by
    obtain ⟨y, hy⟩ := h x List.mem_cons_self
    obtain ⟨ys, hys⟩ := exists_forall₂ fun x' (hx' : x' ∈ xs) => h x' (List.mem_cons_of_mem x hx')
    exact ⟨y :: ys, .cons hy hys⟩

theorem foldlM_append_eq_ok {f : σ → α → Except ε σ} {xs ys : List α} {s u : σ} :
    (xs ++ ys).foldlM f s = .ok u ↔ ∃ t, xs.foldlM f s = .ok t ∧ ys.foldlM f t = .ok u := by
  rw [List.foldlM_append, bind_eq_ok]

/-- **Induction along a successful sequence of steps.** The invariant knows the elements that are
done and those that are left. -/
theorem foldlM_induction {f : σ → α → Except ε σ} (R : List α → σ → Prop) {xs : List α} {s u : σ}
    (h0 : R [] s) (hstep : ∀ done x rest s' t, xs = done ++ x :: rest → R done s' →
      f s' x = .ok t → R (done ++ [x]) t) (h : xs.foldlM f s = .ok u) : R xs u := by
  suffices key : ∀ (rest done : List α) (s' : σ), xs = done ++ rest → R done s' →
      rest.foldlM f s' = .ok u → R xs u from key xs [] s rfl h0 h
  intro rest
  induction rest with
  | nil =>
    intro done s' hxs hR hf
    rw [List.append_nil] at hxs
    rw [hxs, ← Except.ok.inj hf]
    exact hR
  | cons x rest ih =>
    intro done s' hxs hR hf
    rw [List.foldlM_cons, bind_eq_ok] at hf
    obtain ⟨t, ht, hrest⟩ := hf
    exact ih (done ++ [x]) t (by simp [hxs]) (hstep done x rest s' t hxs hR ht) hrest

/-- Two sequences of steps are the same if the steps are, in the states that are reached. -/
theorem foldlM_congr {f g : σ → α → Except ε σ} (P : σ → Prop) {xs : List α}
    {t : σ} (ht : P t)
    (h : ∀ x ∈ xs, ∀ t, P t → f t x = g t x ∧ ∀ t', g t x = .ok t' → P t') :
    xs.foldlM f t = xs.foldlM g t := by
  induction xs generalizing t with
  | nil => rfl
  | cons x xs ih =>
    obtain ⟨hstep, hnext⟩ := h x List.mem_cons_self t ht
    rw [List.foldlM_cons, List.foldlM_cons, hstep]
    rcases hg : g t x with e | t'
    · rfl
    · exact ih (hnext t' hg) fun y hy => h y (List.mem_cons_of_mem x hy)

/-! ### Outcomes -/

/-- What a step may come to: a result with one property or an error with another. -/
def Yields (P : α → Prop) (E : ε → Prop) : Except ε α → Prop
  | .ok a => P a
  | .error e => E e

theorem yields_iff_exists {P : α → Prop} {x : Except ε α} :
    Yields P (fun _ => False) x ↔ ∃ a, x = .ok a ∧ P a := by
  rcases x with e | a <;> simp [Yields]

theorem Yields.imp {P Q : α → Prop} {E F : ε → Prop} {x : Except ε α} (h : Yields P E x)
    (hPQ : ∀ a, P a → Q a) (hEF : ∀ e, E e → F e) : Yields Q F x := by
  rcases x with e | a
  · exact hEF e h
  · exact hPQ a h

theorem Yields.bind {P : α → Prop} {Q : β → Prop} {E : ε → Prop} {x : Except ε α}
    {f : α → Except ε β} (h : Yields P E x) (hf : ∀ a, P a → Yields Q E (f a)) :
    Yields Q E (x >>= f) := by
  rcases x with e | a
  · exact h
  · exact hf a h

/-- What is known of a result apart from its errors. -/
theorem Yields.of_ok {P Q : α → Prop} {E : ε → Prop} {x : Except ε α} (h : Yields P E x)
    (hQ : ∀ a, x = .ok a → Q a) : Yields Q E x := by
  rcases x with e | a
  · exact h
  · exact hQ a rfl

theorem Yields.mapM {f : α → Except ε β} {E : ε → Prop} : ∀ {xs : List α},
    (∀ x ∈ xs, Yields (fun _ => True) E (f x)) → Yields (fun _ => True) E (xs.mapM f)
  | [], _ => trivial
  | x :: xs, h => by
    rw [List.mapM_cons]
    refine (h x List.mem_cons_self).bind fun y _ => ?_
    exact (Yields.mapM fun x' hx' => h x' (List.mem_cons_of_mem x hx')).bind fun _ _ => trivial

theorem Yields.mapError {P : α → Prop} {E : ε' → Prop} {f : ε → ε'} {x : Except ε α}
    (h : Yields P (fun e => E (f e)) x) : Yields P E (x.mapError f) := by
  rcases x with e | a
  · exact h
  · exact h

/-- What a sequence of steps may come to. As in `foldlM_induction`, the invariant knows the elements
that are done. -/
theorem Yields.foldlM_induction {f : σ → α → Except ε σ} {E : ε → Prop} (R : List α → σ → Prop)
    {xs : List α} {s : σ} (h0 : R [] s)
    (hstep : ∀ done x rest t, xs = done ++ x :: rest → R done t →
      Yields (R (done ++ [x])) E (f t x)) : Yields (R xs) E (xs.foldlM f s) := by
  suffices key : ∀ (rest done : List α) (t : σ), xs = done ++ rest → R done t →
      Yields (R xs) E (rest.foldlM f t) from key xs [] s rfl h0
  intro rest
  induction rest with
  | nil =>
    intro done t hxs hR
    rw [List.append_nil] at hxs
    rw [hxs]
    exact hR
  | cons x rest ih =>
    intro done t hxs hR
    rw [List.foldlM_cons]
    refine (hstep done x rest t hxs hR).bind fun t' ht' => ?_
    exact ih (done ++ [x]) t' (by simp [hxs]) ht'

theorem Yields.foldlM {f : σ → α → Except ε σ} {P : σ → Prop} {E : ε → Prop} {xs : List α} {s : σ}
    (h0 : P s) (hstep : ∀ x ∈ xs, ∀ t, P t → Yields P E (f t x)) : Yields P E (xs.foldlM f s) := by
  refine Yields.foldlM_induction (fun _ => P) h0 fun done x rest t hxs ht => ?_
  exact hstep x (by simp [hxs]) t ht

/-! ### Steps that fail together -/

section Both
variable {α' β' σ' : Type}

/-- Both steps succeed, with related results, or both fail. -/
def Both (R : α → α' → Prop) (x : Except ε α) (x' : Except ε' α') : Prop :=
  (∃ a a', x = .ok a ∧ x' = .ok a' ∧ R a a') ∨ ∃ e e', x = .error e ∧ x' = .error e'

theorem both_ok {R : α → α' → Prop} {a : α} {a' : α'} (h : R a a') :
    Both R (.ok a : Except ε α) (.ok a' : Except ε' α') := Or.inl ⟨a, a', rfl, rfl, h⟩

theorem both_error {R : α → α' → Prop} (e : ε) (e' : ε') :
    Both R (.error e : Except ε α) (.error e' : Except ε' α') := Or.inr ⟨e, e', rfl, rfl⟩

theorem both_same (x : Except ε α) : Both Eq x x := by
  rcases x with e | a
  · exact both_error e e
  · exact both_ok rfl

theorem Both.bind {R : α → α' → Prop} {S : β → β' → Prop} {x : Except ε α} {x' : Except ε' α'}
    {f : α → Except ε β} {f' : α' → Except ε' β'} (h : Both R x x')
    (hf : ∀ a a', R a a' → Both S (f a) (f' a')) : Both S (x >>= f) (x' >>= f') := by
  rcases h with ⟨a, a', rfl, rfl, ha⟩ | ⟨e, e', rfl, rfl⟩
  · exact hf a a' ha
  · exact both_error e e'

theorem Both.imp {R S : α → α' → Prop} {x : Except ε α} {x' : Except ε' α'} (h : Both R x x')
    (hRS : ∀ a a', R a a' → S a a') : Both S x x' := by
  rcases h with ⟨a, a', rfl, rfl, ha⟩ | ⟨e, e', rfl, rfl⟩
  · exact both_ok (hRS a a' ha)
  · exact both_error e e'

theorem Both.foldlM {R : σ → σ' → Prop} {Q : α → α' → Prop} {f : σ → α → Except ε σ}
    {f' : σ' → α' → Except ε' σ'} {xs : List α} {xs' : List α'} (h : List.Forall₂ Q xs xs')
    (hstep : ∀ x x', Q x x' → ∀ s s', R s s' → Both R (f s x) (f' s' x')) {s : σ} {s' : σ'}
    (hs : R s s') : Both R (xs.foldlM f s) (xs'.foldlM f' s') := by
  induction h generalizing s s' with
  | nil => exact both_ok hs
  | @cons x x' xs xs' hx _ ih =>
    rw [List.foldlM_cons, List.foldlM_cons]
    exact (hstep x x' hx s s' hs).bind fun t t' ht => ih ht

end Both

end AluVM.Steps
