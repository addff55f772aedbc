import AluVM.Syntax.Statement
import Mathlib.Tactic.Common

/-! # Phrases

A phrase is a rule of a grammar over words, with what it says: it relates lists of words to the
values of their derivations. Phrases are put together as in the extended Backus-Naur form, and the
values along with them: `<|>` is a choice, `<*>` stands for one after the other, `optional`, `star`
and `plus` for what may be left out or repeated.

What may follow a word is a phrase again (`after`), so a grammar can be read word by word. -/

namespace AluVM.Syntax

/-- A rule of a grammar: the lists of words that it derives, and what a derivation says. -/
@[ext]
structure Phrase (α : Type) where
  Derives : List Token → α → Prop

namespace Phrase

variable {α β : Type}

/-- No words, one phrase behind another, no list of words at all, and a choice. -/
instance : AlternativeMonad Phrase where
  pure a := ⟨fun ts v => ts = [] ∧ v = a⟩
  bind p f := ⟨fun ts v => ∃ us vs a, ts = us ++ vs ∧ p.Derives us a ∧ (f a).Derives vs v⟩
  failure := ⟨fun _ _ => False⟩
  orElse p q := ⟨fun ts v => p.Derives ts v ∨ (q ()).Derives ts v⟩

/-- One word of a class. -/
def word (k : Terminal) : Phrase Token := ⟨fun ts t => ts = [t] ∧ t.terminal = k⟩

/-- The phrase again and again. -/
inductive Repeats (p : Phrase α) : List Token → List α → Prop where
  | nil : Repeats p [] []
  | cons {us vs : List Token} {a : α} {as : List α} (h : p.Derives us a) (hs : Repeats p vs as) :
      Repeats p (us ++ vs) (a :: as)

/-- The phrase any number of times. -/
def star (p : Phrase α) : Phrase (List α) := ⟨Repeats p⟩

/-- The phrase at least once. -/
def plus (p : Phrase α) : Phrase (List α) := List.cons <$> p <*> star p

/-! ### Derivations -/

theorem derives_pure {ts : List Token} {a v : α} :
    (pure a : Phrase α).Derives ts v ↔ ts = [] ∧ v = a := Iff.rfl

instance : LawfulMonad Phrase := LawfulMonad.mk' Phrase
  (fun p => by
    ext ts v
    constructor
    · rintro ⟨us, _, a, rfl, h, rfl, rfl⟩
      rwa [List.append_nil]
    · exact fun h => ⟨ts, [], v, (List.append_nil ts).symm, h, rfl, rfl⟩)
  (fun a f => by
    ext ts v
    constructor
    · rintro ⟨_, vs, _, rfl, ⟨rfl, rfl⟩, h⟩
      exact h
    · exact fun h => ⟨[], ts, a, rfl, ⟨rfl, rfl⟩, h⟩)
  (fun p f g => by
    ext ts v
    constructor
    · rintro ⟨_, ws, b, rfl, ⟨us, vs, a, rfl, hp, hf⟩, hg⟩
      exact ⟨us, vs ++ ws, a, List.append_assoc us vs ws, hp, vs, ws, b, rfl, hf, hg⟩
    · rintro ⟨us, _, a, rfl, hp, vs, ws, b, rfl, hf, hg⟩
      exact ⟨us ++ vs, ws, b, (List.append_assoc us vs ws).symm, ⟨us, vs, a, rfl, hp, hf⟩, hg⟩)

theorem derives_map {p : Phrase α} {g : α → β} {ts : List Token} {b : β} :
    (g <$> p).Derives ts b ↔ ∃ a, p.Derives ts a ∧ b = g a := by
  rw [map_eq_pure_bind]
  constructor
  · rintro ⟨us, _, a, rfl, h, rfl, rfl⟩
    exact ⟨a, by rwa [List.append_nil], rfl⟩
  · rintro ⟨a, h, rfl⟩
    exact ⟨ts, [], a, (List.append_nil ts).symm, h, rfl, rfl⟩

/-! ### Laws -/

section Laws
variable {p q : Phrase α} {f : α → Phrase β}

theorem orElse_bind : ((p <|> q) >>= f) = ((p >>= f) <|> (q >>= f)) := by
  ext ts v
  constructor
  · rintro ⟨us, vs, a, hts, h | h, hf⟩
    · exact .inl ⟨us, vs, a, hts, h, hf⟩
    · exact .inr ⟨us, vs, a, hts, h, hf⟩
  · rintro (⟨us, vs, a, hts, h, hf⟩ | ⟨us, vs, a, hts, h, hf⟩)
    · exact ⟨us, vs, a, hts, .inl h, hf⟩
    · exact ⟨us, vs, a, hts, .inr h, hf⟩

instance : LawfulAlternative Phrase where
  map_failure g := by
    ext ts v
    rw [derives_map]
    exact ⟨fun ⟨_, h, _⟩ => h, False.elim⟩
  failure_seq p := by
    ext ts v
    exact ⟨fun ⟨_, _, _, _, h, _⟩ => h, False.elim⟩
  orElse_failure p := by
    ext ts v
    exact or_iff_left id
  failure_orElse p := by
    ext ts v
    exact or_iff_right id
  orElse_assoc p q r := by
    ext ts v
    exact or_assoc.symm
  map_orElse p q g := by
    rw [map_eq_pure_bind, map_eq_pure_bind, map_eq_pure_bind, orElse_bind]

theorem star_eq (p : Phrase α) :
    star p = (pure [] <|> p >>= fun a => star p >>= fun as => pure (a :: as)) := by
  ext ts v
  constructor
  · intro h
    rcases h with _ | ⟨h, hs⟩
    · exact .inl ⟨rfl, rfl⟩
    · exact .inr ⟨_, _, _, rfl, h, _, [], _, (List.append_nil _).symm, hs, rfl, rfl⟩
  · rintro (⟨rfl, rfl⟩ | ⟨us, _, a, rfl, h, vs, _, as, rfl, hs, rfl, rfl⟩)
    · exact .nil
    · rw [List.append_nil]
      exact .cons h hs

theorem star_bind (p : Phrase α) (f : List α → Phrase β) :
    (star p >>= f) = (f [] <|> p >>= fun a => star p >>= fun as => f (a :: as)) := by
  conv_lhs => rw [star_eq]
  simp [orElse_bind]

end Laws

/-! ### What follows a word -/

/-- What may follow a word at the start of the phrase. -/
def after (p : Phrase α) (t : Token) : Phrase α := ⟨fun ts v => p.Derives (t :: ts) v⟩

section After
variable {p q : Phrase α} {f : α → Phrase β} {t : Token}

@[simp]
theorem after_pure (a : α) : (pure a : Phrase α).after t = failure := by
  ext ts v
  exact ⟨fun h => (List.cons_ne_nil t ts h.1).elim, False.elim⟩

@[simp]
theorem after_orElse : (p <|> q).after t = (p.after t <|> q.after t) := rfl

/-- What follows the first word of one phrase behind another: the first phrase goes on, or it has
no words. -/
theorem after_bind {o : Option α} (hp : ∀ a, p.Derives [] a ↔ o = some a) :
    (p >>= f).after t = ((p.after t >>= f) <|> o.elim failure fun a => (f a).after t) := by
  ext ts v
  constructor
  · rintro ⟨us, vs, a, hts, h, hf⟩
    rcases us with _ | ⟨u, us⟩
    · obtain rfl : t :: ts = vs := hts
      rw [(hp a).mp h]
      exact .inr hf
    · obtain ⟨rfl, rfl⟩ := List.cons.inj hts
      exact .inl ⟨us, vs, a, rfl, h, hf⟩
  · rintro (⟨us, vs, a, rfl, h, hf⟩ | h)
    · exact ⟨t :: us, vs, a, rfl, h, hf⟩
    · rcases o with _ | a
      · exact h.elim
      · exact ⟨[], t :: ts, a, rfl, (hp a).mpr rfl, h⟩

theorem after_bind_of_not_nil (hp : ∀ a, ¬ p.Derives [] a) :
    (p >>= f).after t = p.after t >>= f := by
  rw [after_bind (o := none) (by simpa using hp), Option.elim_none, orElse_failure]

@[simp]
theorem after_word_bind {k : Terminal} {f : Token → Phrase β} :
    (word k >>= f).after t = if t.terminal = k then f t else failure := by
  ext ts v
  split_ifs with hk
  · constructor
    · rintro ⟨_, vs, u, hts, ⟨rfl, -⟩, hf⟩
      obtain ⟨rfl, rfl⟩ := List.cons.inj hts
      exact hf
    · exact fun h => ⟨[t], ts, t, rfl, ⟨rfl, hk⟩, h⟩
  · refine ⟨?_, False.elim⟩
    rintro ⟨_, vs, u, hts, ⟨rfl, hu⟩, -⟩
    exact hk ((List.cons.inj hts).1 ▸ hu)

@[simp]
theorem after_word {k : Terminal} :
    (word k).after t = if t.terminal = k then pure t else failure := by
  rw [← bind_pure (word k), after_word_bind]

@[simp]
theorem after_map {g : α → β} : (g <$> p).after t = g <$> p.after t := by
  ext ts v
  exact derives_map.trans (derives_map (p := p.after t)).symm

end After

/-! ### The empty list of words -/

section Nil
variable {p q : Phrase α} {f : α → Phrase β} {a v : α} {b : β}

@[simp]
theorem nil_pure : (pure a : Phrase α).Derives [] v ↔ v = a := by
  rw [derives_pure, eq_self_iff_true, true_and]

@[simp]
theorem nil_bind : (p >>= f).Derives [] b ↔ ∃ a, p.Derives [] a ∧ (f a).Derives [] b := by
  constructor
  · rintro ⟨us, vs, a, h, hp, hf⟩
    obtain ⟨rfl, rfl⟩ := List.append_eq_nil_iff.mp h.symm
    exact ⟨a, hp, hf⟩
  · rintro ⟨a, hp, hf⟩
    exact ⟨[], [], a, rfl, hp, hf⟩

@[simp]
theorem nil_map {g : α → β} : (g <$> p).Derives [] b ↔ ∃ a, p.Derives [] a ∧ b = g a := derives_map

@[simp]
theorem nil_orElse : (p <|> q).Derives [] v ↔ p.Derives [] v ∨ q.Derives [] v := Iff.rfl

@[simp]
theorem nil_failure : ¬ (failure : Phrase α).Derives [] v := id

@[simp]
theorem nil_word {k : Terminal} {t : Token} : ¬ (word k).Derives [] t :=
  fun h => List.cons_ne_nil t [] h.1.symm

theorem nil_star (hp : ∀ a, ¬ p.Derives [] a) {as : List α} :
    (star p).Derives [] as ↔ as = [] := by
  rw [star_eq]
  simp [hp]

end Nil

/-! ### Phrases that derive something -/

/-- The phrase derives some list of words. -/
def Productive (p : Phrase α) : Prop := ∃ ts v, p.Derives ts v

section Productive
variable {p q : Phrase α} {f : α → Phrase β}

theorem productive_word (k : Terminal) : (word k).Productive :=
  ⟨[⟨k, "", ⟨0, 0⟩⟩], ⟨k, "", ⟨0, 0⟩⟩, rfl, rfl⟩

theorem productive_star (p : Phrase α) : (star p).Productive := ⟨[], [], .nil⟩

theorem Productive.bind (hp : p.Productive) (hf : ∀ a, (f a).Productive) :
    (p >>= f).Productive := by
  obtain ⟨us, a, ha⟩ := hp
  obtain ⟨vs, b, hb⟩ := hf a
  exact ⟨us ++ vs, b, us, vs, a, rfl, ha, hb⟩

theorem Productive.map (hp : p.Productive) (g : α → β) : (g <$> p).Productive := by
  obtain ⟨ts, a, ha⟩ := hp
  exact ⟨ts, g a, derives_map.mpr ⟨a, ha, rfl⟩⟩

theorem Productive.seqRight {q : Phrase β} (hp : p.Productive) (hq : q.Productive) :
    (p *> q).Productive := by
  rw [seqRight_eq_bind]
  exact hp.bind fun _ => hq

theorem Productive.orElse (hp : p.Productive) (q : Phrase α) : (p <|> q).Productive := by
  obtain ⟨ts, a, ha⟩ := hp
  exact ⟨ts, a, .inl ha⟩

end Productive

/-! ### What derivations say -/

/-- What is known of the value of every derivation from good words. -/
def Gives (p : Phrase α) (good : Token → Prop) (Q : α → Prop) : Prop :=
  ∀ ts a, p.Derives ts a → (∀ t ∈ ts, good t) → Q a

section Gives
variable {p q : Phrase α} {good : Token → Prop} {Q : α → Prop} {R : β → Prop}

theorem gives_true (p : Phrase α) : p.Gives good fun _ => True := fun _ _ _ _ => trivial

theorem gives_pure {a : α} (h : Q a) : (pure a : Phrase α).Gives good Q := by
  rintro ts _ ⟨-, rfl⟩ -
  exact h

theorem gives_word (k : Terminal) : (word k).Gives good fun t => t.terminal = k ∧ good t := by
  rintro ts t ⟨rfl, hk⟩ hgood
  exact ⟨hk, hgood t List.mem_cons_self⟩

theorem Gives.bind {f : α → Phrase β} (hp : p.Gives good Q) (hf : ∀ a, Q a → (f a).Gives good R) :
    (p >>= f).Gives good R := by
  rintro _ b ⟨us, vs, a, rfl, ha, hb⟩ hgood
  obtain ⟨hus, hvs⟩ := List.forall_mem_append.mp hgood
  exact hf a (hp us a ha hus) vs b hb hvs

theorem Gives.map {g : α → β} (hp : p.Gives good Q) (hg : ∀ a, Q a → R (g a)) :
    (g <$> p).Gives good R := by
  rw [map_eq_pure_bind]
  exact hp.bind fun a ha => gives_pure (hg a ha)

theorem Gives.seq {pg : Phrase (α → β)} (hg : pg.Gives good fun g => ∀ a, Q a → R (g a))
    (hp : p.Gives good Q) : (pg <*> p).Gives good R := by
  rw [seq_eq_bind_map]
  exact hg.bind fun g hg => hp.map hg

theorem Gives.seqLeft {q : Phrase β} (hp : p.Gives good Q) : (p <* q).Gives good Q := by
  rw [seqLeft_eq_bind]
  exact hp.bind fun a ha => (gives_true q).bind fun _ _ => gives_pure ha

theorem Gives.seqRight {q : Phrase β} (hq : q.Gives good R) : (p *> q).Gives good R := by
  rw [seqRight_eq_bind]
  exact (gives_true p).bind fun _ _ => hq

theorem Gives.orElse (hp : p.Gives good Q) (hq : q.Gives good Q) : (p <|> q).Gives good Q := by
  rintro ts a (h | h)
  · exact hp ts a h
  · exact hq ts a h

theorem Gives.optional (hp : p.Gives good Q) :
    (optional p).Gives good fun a? => ∀ a ∈ a?, Q a := by
  refine Gives.orElse (hp.map fun a ha b hb => ?_) (gives_pure (by simp))
  rwa [← Option.mem_some.mp hb]

theorem gives_star (hp : p.Gives good Q) : (star p).Gives good fun as => ∀ a ∈ as, Q a := by
  intro ts as h hgood
  induction h with
  | nil => simp
  | cons h hs ih =>
    obtain ⟨hus, hvs⟩ := List.forall_mem_append.mp hgood
    exact List.forall_mem_cons.mpr ⟨hp _ _ h hus, ih hvs⟩

end Gives

end Phrase

end AluVM.Syntax
