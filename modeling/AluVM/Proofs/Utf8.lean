import AluVM.Bytes.Utf8
import Mathlib.Tactic.SplitIfs

/-! # Reading UTF-8 undoes writing it

A text has one UTF-8 form, and the strict reader accepts nothing else: a byte string is read as a
text exactly if it is the form of that text (`toText_eq_ok_iff`).

What the two have in common is `Sequence`, the byte sequences of one character with the bounds that
the reader checks. Every character has one (`exists_sequence`), it is what the writer writes
(`Sequence.encode`), and the reader takes it as a whole (`Sequence.decode`). Bytes are compared as
natural numbers throughout, so that bounds and payload bits meet in linear arithmetic. -/

namespace AluVM.Bytes

/-! ### One character -/

theorem isContinuation_iff {b : UInt8} :
    isContinuation b = true ↔ 128 ≤ b.toNat ∧ b.toNat ≤ 191 := by
  simp [isContinuation, UInt8.le_iff_toNat_le]

/-- The second byte of a long character, by the first one. -/
theorem isSecond_iff {a b : UInt8} : isSecond a b = true ↔
    (128 ≤ b.toNat ∧ b.toNat ≤ 191) ∧ (a.toNat = 224 → 160 ≤ b.toNat) ∧
      (a.toNat = 237 → b.toNat < 160) ∧ (a.toNat = 240 → 144 ≤ b.toNat) ∧
      (a.toNat = 244 → b.toNat < 144) := by
  simp only [isSecond, Bool.and_eq_true, isContinuation_iff, ← UInt8.toNat_inj,
    UInt8.le_iff_toNat_le, UInt8.lt_iff_toNat_lt, UInt8.reduceToNat]
  split_ifs <;> simp <;> omega

/-- The byte sequences of characters, by their lengths. -/
inductive Sequence : Char → Bytes → Prop where
  | one {a : UInt8} (ha : a.toNat < 128) : Sequence (ofPayload a.toNat []) [a]
  | two {a b : UInt8} (ha : 194 ≤ a.toNat) (ha' : a.toNat < 224) (hb : isContinuation b = true) :
      Sequence (ofPayload (a.toNat % 32) [b]) [a, b]
  | three {a b c : UInt8} (ha : 224 ≤ a.toNat) (ha' : a.toNat < 240) (hb : isSecond a b = true)
      (hc : isContinuation c = true) : Sequence (ofPayload (a.toNat % 16) [b, c]) [a, b, c]
  | four {a b c d : UInt8} (ha : 240 ≤ a.toNat) (ha' : a.toNat < 245) (hb : isSecond a b = true)
      (hc : isContinuation c = true) (hd : isContinuation d = true) :
      Sequence (ofPayload (a.toNat % 8) [b, c, d]) [a, b, c, d]

/-- The code point with the given payload bits. -/
def codePoint (first : Nat) (others : List UInt8) : Nat :=
  others.foldl (fun n b => 64 * n + b.toNat % 64) first

theorem ofPayload_eq {first : Nat} {others : List UInt8} {x : Char}
    (h : codePoint first others = x.toNat) : ofPayload first others = x := by
  rw [← Char.ofNat_toNat x, ← h]
  rfl

theorem toNat_ofPayload {first v : Nat} {others : List UInt8} (hv : codePoint first others = v)
    (h : v.isValidChar) : (ofPayload first others).val.toNat = v := by
  subst hv
  have hchar : ofPayload first others = Char.ofNatAux (codePoint first others) h := dif_pos h
  rw [hchar]
  exact UInt32.toNat_ofNatLT

/-- **The writer writes the sequence of a character.** -/
theorem Sequence.encode {x : Char} {form : Bytes} (h : Sequence x form) :
    String.utf8EncodeChar x = form := by
  cases h with
  | one ha =>
    rename_i a
    have hn : (ofPayload a.toNat []).val.toNat = a.toNat := toNat_ofPayload rfl (Or.inl (by omega))
    simp only [String.utf8EncodeChar, hn, if_pos (show a.toNat ≤ 127 by omega), UInt8.ofNat_toNat]
  | two ha ha' hb =>
    rename_i a b
    rw [isContinuation_iff] at hb
    obtain ⟨v, hv⟩ : ∃ v, 64 * (a.toNat % 32) + b.toNat % 64 = v := ⟨_, rfl⟩
    have hn : (ofPayload (a.toNat % 32) [b]).val.toNat = v :=
      toNat_ofPayload hv (Or.inl (by omega))
    have h1 : v / 64 % 32 + 192 = a.toNat := by omega
    have h2 : v % 64 + 128 = b.toNat := by omega
    simp only [String.utf8EncodeChar, hn, h1, h2, UInt8.ofNat_toNat]
    rw [if_neg (by omega), if_pos (by omega)]
  | three ha ha' hb hc =>
    rename_i a b c
    rw [isSecond_iff] at hb
    rw [isContinuation_iff] at hc
    obtain ⟨v, hv⟩ : ∃ v, 64 * (64 * (a.toNat % 16) + b.toNat % 64) + c.toNat % 64 = v := ⟨_, rfl⟩
    have hvalid : v.isValidChar := by simp only [Nat.isValidChar]; omega
    have hn : (ofPayload (a.toNat % 16) [b, c]).val.toNat = v := toNat_ofPayload hv hvalid
    have h1 : v / 4096 % 16 + 224 = a.toNat := by omega
    have h2 : v / 64 % 64 + 128 = b.toNat := by omega
    have h3 : v % 64 + 128 = c.toNat := by omega
    simp only [String.utf8EncodeChar, hn, h1, h2, h3, UInt8.ofNat_toNat]
    rw [if_neg (by omega), if_neg (by omega), if_pos (by omega)]
  | four ha ha' hb hc hd =>
    rename_i a b c d
    rw [isSecond_iff] at hb
    rw [isContinuation_iff] at hc hd
    obtain ⟨v, hv⟩ : ∃ v, 64 * (64 * (64 * (a.toNat % 8) + b.toNat % 64) + c.toNat % 64) +
      d.toNat % 64 = v := ⟨_, rfl⟩
    have hvalid : v.isValidChar := by simp only [Nat.isValidChar]; omega
    have hn : (ofPayload (a.toNat % 8) [b, c, d]).val.toNat = v := toNat_ofPayload hv hvalid
    have h1 : v / 262144 % 8 + 240 = a.toNat := by omega
    have h2 : v / 4096 % 64 + 128 = b.toNat := by omega
    have h3 : v / 64 % 64 + 128 = c.toNat := by omega
    have h4 : v % 64 + 128 = d.toNat := by omega
    simp only [String.utf8EncodeChar, hn, h1, h2, h3, h4, UInt8.ofNat_toNat]
    rw [if_neg (by omega), if_neg (by omega), if_neg (by omega)]

theorem exists_byte {n : Nat} (h : n < 256) : ∃ b : UInt8, b.toNat = n :=
  ⟨UInt8.ofNat n, UInt8.toNat_ofNat_of_lt' h⟩

theorem exists_continuation (n : Nat) :
    ∃ b : UInt8, b.toNat = n % 64 + 128 ∧ isContinuation b = true := by
  obtain ⟨b, hb⟩ := exists_byte (n := n % 64 + 128) (by omega)
  exact ⟨b, hb, isContinuation_iff.mpr (by omega)⟩

/-- Every character has a sequence. -/
theorem exists_sequence (x : Char) : ∃ form, Sequence x form := by
  have hvalid : x.toNat < 55296 ∨ 57343 < x.toNat ∧ x.toNat < 1114112 := x.valid
  obtain ⟨d, hd, hd'⟩ := exists_continuation x.toNat
  obtain ⟨c, hc, hc'⟩ := exists_continuation (x.toNat / 64)
  obtain ⟨b, hb, -⟩ := exists_continuation (x.toNat / 4096)
  rcases Nat.lt_or_ge x.toNat 128 with h1 | h1
  · obtain ⟨a, ha⟩ := exists_byte (n := x.toNat) (by omega)
    have hx : ofPayload a.toNat [] = x := ofPayload_eq ha
    exact ⟨[a], hx ▸ .one (by omega)⟩
  rcases Nat.lt_or_ge x.toNat 2048 with h2 | h2
  · obtain ⟨a, ha⟩ := exists_byte (n := x.toNat / 64 + 192) (by omega)
    have hx : ofPayload (a.toNat % 32) [d] = x :=
      ofPayload_eq (by simp only [codePoint, List.foldl_cons, List.foldl_nil]; omega)
    exact ⟨[a, d], hx ▸ .two (by omega) (by omega) hd'⟩
  rcases Nat.lt_or_ge x.toNat 65536 with h3 | h3
  · obtain ⟨a, ha⟩ := exists_byte (n := x.toNat / 4096 + 224) (by omega)
    have hx : ofPayload (a.toNat % 16) [c, d] = x :=
      ofPayload_eq (by simp only [codePoint, List.foldl_cons, List.foldl_nil]; omega)
    have hsecond : isSecond a c = true := isSecond_iff.mpr (by omega)
    exact ⟨[a, c, d], hx ▸ .three (by omega) (by omega) hsecond hd'⟩
  · obtain ⟨a, ha⟩ := exists_byte (n := x.toNat / 262144 + 240) (by omega)
    have hx : ofPayload (a.toNat % 8) [b, c, d] = x :=
      ofPayload_eq (by simp only [codePoint, List.foldl_cons, List.foldl_nil]; omega)
    have hsecond : isSecond a b = true := isSecond_iff.mpr (by omega)
    exact ⟨[a, b, c, d], hx ▸ .four (by omega) (by omega) hsecond hc' hd'⟩

/-! ### The reader -/

theorem not_lt_of_le_toNat {a k : UInt8} {n : Nat} (ha : n ≤ a.toNat) (hk : k.toNat ≤ n) :
    ¬ a < k :=
  UInt8.not_lt.mpr (UInt8.le_iff_toNat_le.mpr (Nat.le_trans hk ha))

/-- **The reader takes the sequence of a character as a whole.** -/
theorem Sequence.decode {x : Char} {form : Bytes} (h : Sequence x form) (done : List Char)
    (pos : Nat) (rest : Bytes) :
    decodeFrom done pos (form ++ rest) = decodeFrom (x :: done) (pos + form.length) rest := by
  cases h with
  | one ha =>
    have h1 := UInt8.lt_iff_toNat_lt (b := 0x80).mpr ha
    rw [List.cons_append, decodeFrom.eq_def]
    simp only [h1, if_true]
    rfl
  | two ha ha' hb =>
    have h1 := not_lt_of_le_toNat (k := 0x80) ha (by decide)
    have h2 := not_lt_of_le_toNat (k := 0xc2) ha (by decide)
    have h3 := UInt8.lt_iff_toNat_lt (b := 0xe0).mpr ha'
    rw [List.cons_append, decodeFrom.eq_def]
    simp only [List.cons_append, h1, h2, h3, hb, if_false, if_true]
    rfl
  | three ha ha' hb hc =>
    have h1 := not_lt_of_le_toNat (k := 0x80) ha (by decide)
    have h2 := not_lt_of_le_toNat (k := 0xc2) ha (by decide)
    have h3 := not_lt_of_le_toNat (k := 0xe0) ha (by decide)
    have h4 := UInt8.lt_iff_toNat_lt (b := 0xf0).mpr ha'
    rw [List.cons_append, decodeFrom.eq_def]
    simp only [List.cons_append, h1, h2, h3, h4, hb, hc, Bool.not_true, Bool.false_eq_true,
      if_false, if_true]
    rfl
  | four ha ha' hb hc hd =>
    have h1 := not_lt_of_le_toNat (k := 0x80) ha (by decide)
    have h2 := not_lt_of_le_toNat (k := 0xc2) ha (by decide)
    have h3 := not_lt_of_le_toNat (k := 0xe0) ha (by decide)
    have h4 := not_lt_of_le_toNat (k := 0xf0) ha (by decide)
    have h5 := UInt8.lt_iff_toNat_lt (b := 0xf5).mpr ha'
    rw [List.cons_append, decodeFrom.eq_def]
    simp only [List.cons_append, h1, h2, h3, h4, h5, hb, hc, hd, Bool.not_true, Bool.false_eq_true,
      if_false, if_true]
    rfl

theorem decodeFrom_flatMap (done : List Char) (pos : Nat) (cs : List Char) :
    decodeFrom done pos (cs.flatMap String.utf8EncodeChar) = .ok (done.reverse ++ cs) := by
  induction cs generalizing done pos with
  | nil => simp [decodeFrom]
  | cons c cs ih =>
    obtain ⟨form, hform⟩ := exists_sequence c
    rw [List.flatMap_cons, hform.encode, hform.decode, ih]
    simp

theorem forms_cons {done cs : List Char} {x : Char} {form s : Bytes} (hx : Sequence x form)
    (h : ∃ new, cs = (x :: done).reverse ++ new ∧ s = new.flatMap String.utf8EncodeChar) :
    ∃ new, cs = done.reverse ++ new ∧ form ++ s = new.flatMap String.utf8EncodeChar := by
  obtain ⟨new, rfl, rfl⟩ := h
  exact ⟨x :: new, by simp, by rw [List.flatMap_cons, hx.encode]⟩

/-- What the reader accepts is a list of sequences, one for each character that it returns. -/
theorem forms_of_decodeFrom {done : List Char} {pos : Nat} {bs : Bytes} {cs : List Char}
    (h : decodeFrom done pos bs = .ok cs) :
    ∃ new, cs = done.reverse ++ new ∧ bs = new.flatMap String.utf8EncodeChar := by
  fun_induction decodeFrom done pos bs with
  | case1 => exact ⟨[], by simpa using (Except.ok.inj h).symm, rfl⟩
  | case2 done pos a s ha ih => exact forms_cons (.one (UInt8.lt_iff_toNat_lt.mp ha)) (ih h)
  | case5 done pos a h1 h2 h3 b s hb ih =>
    simp only [UInt8.lt_iff_toNat_lt, UInt8.reduceToNat] at h2 h3
    exact forms_cons (.two (by omega) h3 hb) (ih h)
  | case10 done pos a h1 h2 h3 h4 b hb c s hc ih =>
    simp only [UInt8.lt_iff_toNat_lt, UInt8.reduceToNat] at h3 h4
    exact forms_cons (.three (by omega) h4 (by simpa using hb) hc) (ih h)
  | case17 done pos a h1 h2 h3 h4 h5 b hb c hc d s hd ih =>
    simp only [UInt8.lt_iff_toNat_lt, UInt8.reduceToNat] at h4 h5
    exact forms_cons (.four (by omega) h5 (by simpa using hb) (by simpa using hc) hd) (ih h)
  | _ => cases h

/-- **A byte string is read as a text exactly if it is the form of the text.** -/
theorem toText_eq_ok_iff {bs : Bytes} {s : String} : toText bs = .ok s ↔ bs = ofText s := by
  unfold toText decodeChars ofText
  constructor
  · intro h
    rcases hd : decodeFrom [] 0 bs with e | cs
    · simp [hd, Except.map] at h
    · obtain ⟨new, rfl, hbs⟩ := forms_of_decodeFrom hd
      rw [hd] at h
      rw [hbs, ← Except.ok.inj h]
      simp
  · rintro rfl
    rw [decodeFrom_flatMap]
    simp [Except.map]

end AluVM.Bytes
