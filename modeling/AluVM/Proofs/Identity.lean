import AluVM.Library
import AluVM.Proofs.Layout
import AluVM.Proofs.Packing
import AluVM.Proofs.Steps
import Mathlib.Data.Nat.Bitwise

/-! # Every content has an id

An id is an algorithm, a colon and the digits of a digest, with blanks around it
(`ContentId.split?_eq_some_iff`). Its normal form is split into the same two, so that ids with one
normal form are those that are split alike (`ContentId.normal_forms_canonical`).

A digest of a known algorithm has `ContentId.digestSize` bytes, so it can always be written as an
id, and what is written is a normal form (`ContentId.Canonical`). A library with known extensions,
segments that fit their length fields and canonical ids of other libraries can therefore be named
by its content: `Library.exists_build`. Conversely a library whose id is that of its content has
known extensions and a canonical id: `Library.canonical_of_verify`. -/

namespace AluVM

/-! ### Digests -/

theorem Digest.Sha2.Variant.length_digest {W : Type} [Inhabited W] [Add W] [AndOp W] [XorOp W]
    [Complement W] (v : Variant W) (message : Bytes) :
    (v.digest message).length = 8 * v.wordBytes := by
  simp only [Variant.digest, List.flatMap_cons, List.flatMap_nil, List.length_append,
    List.length_nil, Variant.bytes, List.length_reverse, Bytes.length_ofNat]
  omega

theorem Digest.Blake2b.length_digest {size : Nat} (h : size ≤ 64) (message : Bytes) :
    (digest size message).length = size := by
  have hwords : ∀ ws : List UInt64,
      (ws.flatMap fun w => Bytes.ofNat 8 w.toNat).length = 8 * ws.length := by
    intro ws
    simp [List.length_flatMap, Nat.mul_comm]
  simp only [digest, List.length_take, hwords, Vector.length_toList]
  omega

/-! ### Hexadecimal text -/

namespace Bytes

theorem hexDigit_spec : ∀ n < 16, hexValue? (Nat.digitChar n) = some n ∧
    Text.isAsciiBlank (Nat.digitChar n) = false ∧ Text.isBlank (Nat.digitChar n) = false := by
  decide

theorem ofHexFrom_flatMap : ∀ (bs done : Bytes),
    ofHexFrom done (bs.flatMap hexOfByte) = some (done.reverse ++ bs)
  | [], done => by simp [ofHexFrom]
  | b :: bs, done => by
    have hlt : b.toNat < 256 := b.toNat_lt
    obtain ⟨hhigh, hblank, -⟩ := hexDigit_spec (b.toNat / 16) (by omega)
    obtain ⟨hlow, -, -⟩ := hexDigit_spec (b.toNat % 16) (by omega)
    have hbyte : UInt8.ofNat (16 * (b.toNat / 16) + b.toNat % 16) = b := by
      rw [Nat.div_add_mod, UInt8.ofNat_toNat]
    simp only [List.flatMap_cons, hexOfByte, List.cons_append, List.nil_append, ofHexFrom, hblank,
      Bool.false_eq_true, if_false, hhigh, hlow, hbyte, ofHexFrom_flatMap bs (b :: done)]
    simp

theorem mem_flatMap_hexOfByte {bs : Bytes} {c : Char} (h : c ∈ bs.flatMap hexOfByte) :
    ∃ n < 16, c = Nat.digitChar n := by
  obtain ⟨b, -, hc⟩ := List.mem_flatMap.mp h
  have hlt : b.toNat < 256 := b.toNat_lt
  simp only [hexOfByte, List.mem_cons, List.not_mem_nil, or_false] at hc
  rcases hc with rfl | rfl
  · exact ⟨b.toNat / 16, by omega, rfl⟩
  · exact ⟨b.toNat % 16, by omega, rfl⟩

theorem all_hexValue? (bs : Bytes) :
    (bs.flatMap hexOfByte).all (fun c => (hexValue? c).isSome) = true := by
  rw [List.all_eq_true]
  intro c hc
  obtain ⟨n, hn, rfl⟩ := mem_flatMap_hexOfByte hc
  rw [(hexDigit_spec n hn).1]
  rfl

theorem length_flatMap_hexOfByte (bs : Bytes) : (bs.flatMap hexOfByte).length = 2 * bs.length := by
  simp [List.length_flatMap, hexOfByte, Nat.mul_comm]

theorem toNat_of_hexValue? {c : Char} (h : (hexValue? c).isSome = true) :
    48 ≤ c.toNat ∧ c.toNat ≤ 102 := by
  have hle : ∀ {a b : Char}, a ≤ b → a.toNat ≤ b.toNat := id
  unfold hexValue? at h
  split_ifs at h with hdigit hlower hupper
  · simp only [Bool.and_eq_true, decide_eq_true_eq] at hdigit
    exact ⟨hle hdigit.1, (hle hdigit.2).trans (by decide)⟩
  · simp only [Bool.and_eq_true, decide_eq_true_eq] at hlower
    exact ⟨le_trans (by decide) (hle hlower.1), hle hlower.2⟩
  · simp only [Bool.and_eq_true, decide_eq_true_eq] at hupper
    exact ⟨le_trans (by decide) (hle hupper.1), (hle hupper.2).trans (by decide)⟩
  · cases h

theorem isAsciiBlank_of_hexValue? {c : Char} (h : (hexValue? c).isSome = true) :
    Text.isAsciiBlank c = false := by
  have hrange := toNat_of_hexValue? h
  have hspace : c ≠ ' ' := by
    rintro rfl
    exact absurd hrange.1 (by decide)
  simp only [Text.isAsciiBlank, hspace, decide_false, Bool.false_or, Bool.and_eq_false_iff,
    decide_eq_false_iff_not]
  omega

/-- Pairs of digits give a byte each. -/
theorem exists_ofHexFrom : ∀ (n : Nat) {digits : List Char} (done : Bytes),
    digits.length = 2 * n → (∀ c ∈ digits, (hexValue? c).isSome = true) →
    ∃ bytes, ofHexFrom done digits = some bytes ∧ bytes.length = done.length + n
  | 0, digits, done, hlen, _ => by
    rw [List.length_eq_zero_iff.mp hlen]
    exact ⟨done.reverse, rfl, by simp⟩
  | n + 1, c :: d :: digits, done, hlen, hall => by
    have hblank := isAsciiBlank_of_hexValue? (hall c (by simp))
    obtain ⟨high, hhigh⟩ := Option.isSome_iff_exists.mp (hall c (by simp))
    obtain ⟨low, hlow⟩ := Option.isSome_iff_exists.mp (hall d (by simp))
    have hlen' : digits.length = 2 * n := by
      simp only [List.length_cons] at hlen
      omega
    obtain ⟨bytes, hbytes, hsize⟩ := exists_ofHexFrom n (UInt8.ofNat (16 * high + low) :: done)
      hlen' fun c hc => hall c (by simp [hc])
    refine ⟨bytes, ?_, by rw [hsize, List.length_cons]; omega⟩
    simp only [ofHexFrom, hblank, Bool.false_eq_true, if_false, hhigh, hlow, hbytes]

theorem length_ofText_le (s : String) : (ofText s).length ≤ 4 * s.toList.length := by
  unfold ofText
  induction s.toList with
  | nil => simp
  | cons c cs ih =>
    have hsize := c.utf8Size_le_four
    rw [List.flatMap_cons, List.length_append, String.length_utf8EncodeChar, List.length_cons]
    omega

end Bytes

/-! ### Ids in normal form -/

theorem Text.stripChars_eq_self {cs : List Char} (hne : cs ≠ [])
    (hfirst : isBlank (cs.head hne) = false) (hlast : isBlank (cs.getLast hne) = false) :
    stripChars cs = cs := by
  have hdrop : ∀ {ds : List Char} (h : ds ≠ []), isBlank (ds.head h) = false →
      ds.dropWhile isBlank = ds := by
    intro ds h hd
    obtain ⟨d, ds, rfl⟩ := List.exists_cons_of_ne_nil h
    exact List.dropWhile_cons_of_neg (by simpa using hd)
  rw [stripChars, hdrop hne hfirst, hdrop (List.reverse_ne_nil_iff.mpr hne) (by
    rw [List.head_reverse]; exact hlast), List.reverse_reverse]

/-- No blank stands among the digits and letters of ASCII. -/
theorem Text.isBlank_of_range {c : Char} (hlow : 48 ≤ c.toNat) (hhigh : c.toNat ≤ 122) :
    isBlank c = false := by
  simp only [isBlank, Bool.or_eq_false_iff, Bool.and_eq_false_iff, decide_eq_false_iff_not,
    beq_eq_false_iff_ne]
  omega

theorem Text.isBlank_of_hexValue? {c : Char} (h : (Bytes.hexValue? c).isSome = true) :
    isBlank c = false := by
  obtain ⟨hlow, hhigh⟩ := Bytes.toNat_of_hexValue? h
  exact isBlank_of_range hlow (by omega)

theorem Text.isBlank_of_lowerOrDigit {c : Char} (h : c.isLower = true ∨ c.isDigit = true) :
    isBlank c = false := by
  rcases h with h | h
  · unfold Char.isLower at h
    have hrange : 97 ≤ c.toNat ∧ c.toNat ≤ 122 := by simpa [UInt32.le_iff_toNat_le] using h
    exact isBlank_of_range (by omega) hrange.2
  · unfold Char.isDigit at h
    have hrange : 48 ≤ c.toNat ∧ c.toNat ≤ 57 := by simpa [UInt32.le_iff_toNat_le] using h
    exact isBlank_of_range hrange.1 (by omega)

namespace ContentId

/-- The text is the id of a known algorithm with its digits in lower case. -/
def Canonical (id : String) : Prop :=
  ∃ s ∈ Strategy.known, ∃ digest : Bytes, digest.length = digestSize ∧
    id = s.name ++ ":" ++ Bytes.toHex digest

theorem Strategy.length_digest {s : Strategy} (hs : s ∈ known) (content : Bytes) :
    (s.digest content).length = digestSize := by
  simp only [known, List.mem_cons, List.not_mem_nil, or_false] at hs
  rcases hs with rfl | rfl
  · exact Digest.Sha2.Variant.length_digest _ content
  · exact Digest.Blake2b.length_digest (by decide) content

theorem Strategy.canonical_of_contentId {s : Strategy} (hs : s ∈ known) {content : Bytes}
    {id : String} (h : s.contentId content = .ok id) : Canonical id := by
  rw [contentId, render, if_pos (s.length_digest hs content)] at h
  exact ⟨s, hs, s.digest content, s.length_digest hs content, (Except.ok.inj h).symm⟩

theorem Strategy.exists_contentId {s : Strategy} (hs : s ∈ known) (content : Bytes) :
    ∃ id, s.contentId content = .ok id := by
  rw [contentId, render, if_pos (s.length_digest hs content)]
  exact ⟨_, rfl⟩

/-- What the names of the known algorithms are like. -/
theorem Strategy.name_spec {s : Strategy} (hs : s ∈ known) :
    isAlgorithmName s.name.toList = true ∧ s.name.toList.length ≤ 10 := by
  simp only [known, List.mem_cons, List.not_mem_nil, or_false] at hs
  rcases hs with rfl | rfl <;> decide

/-- The name of an algorithm is not empty, and no character of it is a colon or a blank. -/
theorem of_isAlgorithmName {name : List Char} (h : isAlgorithmName name = true) :
    name ≠ [] ∧ ∀ c ∈ name, c ≠ ':' ∧ Text.isBlank c = false := by
  rcases name with _ | ⟨c, cs⟩
  · cases h
  · simp only [isAlgorithmName, Bool.and_eq_true, List.all_eq_true, Bool.or_eq_true] at h
    have hplain : ∀ {d : Char}, d.isLower = true ∨ d.isDigit = true →
        d ≠ ':' ∧ Text.isBlank d = false := by
      intro d hd
      refine ⟨?_, Text.isBlank_of_lowerOrDigit hd⟩
      rintro rfl
      revert hd
      decide
    exact ⟨List.cons_ne_nil c cs, List.forall_mem_cons.mpr
      ⟨hplain (.inl h.1), fun d hd => hplain (h.2 d hd)⟩⟩

/-- There is nothing to strip from an id. -/
theorem stripChars_id {name digits : List Char} (hname : isAlgorithmName name = true)
    (hdigits : digits ≠ []) (hhex : ∀ c ∈ digits, (Bytes.hexValue? c).isSome = true) :
    Text.stripChars (name ++ ':' :: digits) = name ++ ':' :: digits := by
  obtain ⟨hne, hchars⟩ := of_isAlgorithmName hname
  refine Text.stripChars_eq_self (by simp) ?_ ?_
  · rw [List.head_append_of_ne_nil hne]
    exact (hchars _ (List.head_mem hne)).2
  · rw [List.getLast_append_of_ne_nil (by simp) (by simp), List.getLast_cons hdigits]
    exact Text.isBlank_of_hexValue? (hhex _ (List.getLast_mem hdigits))

/-- **The texts that are split**: blanks around an algorithm, a colon and the digits of a digest. -/
theorem split?_eq_some_iff {text algorithm : String} {digest : Bytes} :
    split? text = some (algorithm, digest) ↔ isAlgorithmName algorithm.toList = true ∧
      ∃ digits, Text.stripChars text.toList = algorithm.toList ++ ':' :: digits ∧
        digits.length = 2 * digestSize ∧ (∀ c ∈ digits, (Bytes.hexValue? c).isSome = true) ∧
        Bytes.ofHex? digits = some digest := by
  unfold split?
  generalize Text.stripChars text.toList = cs
  constructor
  · intro h
    simp only at h
    split_ifs at h with hcond
    simp only [Bool.and_eq_true, decide_eq_true_eq, List.all_eq_true] at hcond
    obtain ⟨⟨hname, hlen⟩, hall⟩ := hcond
    obtain ⟨_, hdigest, heq⟩ := Option.map_eq_some_iff.mp h
    cases heq
    rw [String.toList_ofList]
    refine ⟨hname, _, ?_, hlen, hall, hdigest⟩
    rcases hrest : cs.dropWhile (· ≠ ':') with _ | ⟨c, rest⟩
    · rw [hrest] at hlen
      cases hlen
    · have hc : c = ':' := by
        have hhead := List.head_dropWhile_not (fun c => decide (c ≠ ':')) (by rw [hrest]; simp)
        simpa only [hrest, List.head_cons, decide_eq_false_iff_not, not_not] using hhead
      have happend := List.takeWhile_append_dropWhile (p := fun c => decide (c ≠ ':')) (l := cs)
      rw [hrest, hc] at happend
      exact happend.symm
  · rintro ⟨hname, digits, rfl, hlen, hall, hdigest⟩
    have hcolon : ∀ c ∈ algorithm.toList, decide (c ≠ ':') = true := fun c hc =>
      decide_eq_true ((of_isAlgorithmName hname).2 c hc).1
    have hvalues : digits.all (fun c => (Bytes.hexValue? c).isSome) = true :=
      List.all_eq_true.mpr hall
    simp only [List.takeWhile_append_of_pos hcolon, List.dropWhile_append_of_pos hcolon]
    simp [hname, hvalues, hlen, hdigest]

/-- An algorithm and a digest are split from their normal form. -/
theorem split?_written {algorithm : String} {digest : Bytes}
    (hname : isAlgorithmName algorithm.toList = true) (hdigest : digest.length = digestSize) :
    split? (algorithm ++ ":" ++ Bytes.toHex digest) = some (algorithm, digest) := by
  have hlist : (algorithm ++ ":" ++ Bytes.toHex digest).toList =
      algorithm.toList ++ ':' :: digest.flatMap Bytes.hexOfByte := by
    simp [Bytes.toHex, String.toList_append]
  have hlength := Bytes.length_flatMap_hexOfByte digest
  have hhex := List.all_eq_true.mp (Bytes.all_hexValue? digest)
  have hdigits : digest.flatMap Bytes.hexOfByte ≠ [] := by
    intro hnil
    simp [hnil, hdigest, digestSize] at hlength
  refine split?_eq_some_iff.mpr ⟨hname, _, ?_, hdigest ▸ hlength, hhex, ?_⟩
  · rw [hlist, stripChars_id hname hdigits hhex]
  · exact Bytes.ofHexFrom_flatMap digest []

theorem split?_canonical {s : Strategy} (hs : s ∈ Strategy.known) {digest : Bytes}
    (hdigest : digest.length = digestSize) :
    split? (s.name ++ ":" ++ Bytes.toHex digest) = some (s.name, digest) :=
  split?_written (s.name_spec hs).1 hdigest

theorem Canonical.normalize_eq {id : String} (h : Canonical id) : normalize id = .ok id := by
  obtain ⟨s, hs, digest, hdigest, rfl⟩ := h
  simp [normalize, split?_canonical hs hdigest]

theorem Canonical.length_ofText {id : String} (h : Canonical id) :
    (Bytes.ofText id).length < 2 ^ 16 := by
  obtain ⟨s, hs, digest, hdigest, rfl⟩ := h
  refine (Bytes.length_ofText_le _).trans_lt ?_
  have hname := (s.name_spec hs).2
  simp only [Bytes.toHex, String.toList_append, String.toList_ofList, List.length_append,
    Bytes.length_flatMap_hexOfByte, hdigest, digestSize]
  have hcolon : (":" : String).toList.length = 1 := rfl
  omega

theorem Strategy.mem_known_of_named {name : String} {s : Strategy} (h : named name = .ok s) :
    s ∈ known := by
  unfold named at h
  split at h
  · next hnamed =>
    cases h
    exact List.mem_of_find?_eq_some hnamed
  · cases h

theorem mem_known_of_strategyOf {id : String} {s : Strategy} (h : strategyOf id = .ok s) :
    s ∈ Strategy.known := by
  unfold strategyOf at h
  split at h
  · exact Strategy.mem_known_of_named h
  · cases h

theorem split?_of_isId {id : String} (h : isId id = true) :
    ∃ s ∈ Strategy.known, ∃ digest, split? id = some (s.name, digest) := by
  unfold isId at h
  split at h
  · rename_i algorithm digest hsplit
    obtain ⟨s, hs⟩ := Option.isSome_iff_exists.mp h
    have hname : s.name = algorithm := by simpa using List.find?_some hs
    exact ⟨s, List.mem_of_find?_eq_some hs, digest, by rw [hname, hsplit]⟩
  · cases h

theorem exists_normalize {text : String} (h : split? text ≠ none) :
    ∃ normal, normalize text = .ok normal := by
  obtain ⟨parts, hsplit⟩ := Option.ne_none_iff_exists'.mp h
  exact ⟨_, by rw [normalize, hsplit]⟩

theorem normalize_of_isId {id : String} (h : isId id = true) :
    ∃ normal, normalize id = .ok normal := by
  obtain ⟨s, -, digest, hsplit⟩ := split?_of_isId h
  exact exists_normalize (by simp [hsplit])

/-- The digest in an id has its size. -/
theorem length_of_split? {text algorithm : String} {digest : Bytes}
    (h : split? text = some (algorithm, digest)) : digest.length = digestSize := by
  obtain ⟨-, digits, -, hlen, hall, hdigest⟩ := split?_eq_some_iff.mp h
  obtain ⟨bytes, hbytes, hsize⟩ := Bytes.exists_ofHexFrom digestSize [] hlen hall
  cases hbytes.symm.trans hdigest
  rw [hsize, List.length_nil, Nat.zero_add]

/-- The normal form of an id of a known algorithm is canonical. -/
theorem canonical_of_isId {id normal : String} (hid : isId id = true)
    (h : normalize id = .ok normal) : Canonical normal := by
  obtain ⟨s, hs, digest, hsplit⟩ := split?_of_isId hid
  rw [normalize, hsplit] at h
  exact ⟨s, hs, digest, length_of_split? hsplit, (Except.ok.inj h).symm⟩

/-- **A text and its normal form are split alike.** -/
theorem split?_normal {text normal : String} (h : normalize text = .ok normal) :
    split? normal = split? text := by
  unfold normalize at h
  split at h
  · rename_i algorithm digest hsplit
    rw [← Except.ok.inj h, hsplit]
    exact split?_written (split?_eq_some_iff.mp hsplit).1 (length_of_split? hsplit)
  · cases h

/-- The normal form is made from what a text is split into. -/
theorem normalize_eq_of_split? {t u : String} (ht : split? t ≠ none) (h : split? t = split? u) :
    normalize t = normalize u := by
  obtain ⟨parts, hsplit⟩ := Option.ne_none_iff_exists'.mp ht
  rw [normalize, normalize, ← h, hsplit]

/-- **Ids have one normal form each.** A text that can be split has a normal form. That is split into
the same algorithm and digest, is its own normal form, and names a known algorithm if the text does.
Another text has the same normal form if and only if it is split alike. What a known algorithm writes
is a normal form. -/
theorem normal_forms_canonical {t : String} (ht : split? t ≠ none) (u : String) :
    (∃ normal, normalize t = .ok normal ∧ split? normal = split? t ∧
      normalize normal = .ok normal ∧ isId normal = isId t) ∧
      (normalize t = normalize u ↔ split? t = split? u) ∧
      ∀ s ∈ Strategy.known, ∀ digest id, s.render digest = .ok id → normalize id = .ok id := by
  obtain ⟨normal, hnormal⟩ := exists_normalize ht
  have hsplit := split?_normal hnormal
  refine ⟨⟨normal, hnormal, hsplit, ?_, by rw [isId, isId, hsplit]⟩, ⟨fun h => ?_, ?_⟩, ?_⟩
  · rw [← normalize_eq_of_split? ht hsplit.symm, hnormal]
  · rw [← hsplit, split?_normal (h ▸ hnormal)]
  · exact normalize_eq_of_split? ht
  · intro s hs digest id hrender
    unfold Strategy.render at hrender
    split_ifs at hrender with hdigest
    exact Canonical.normalize_eq ⟨s, hs, digest, hdigest, (Except.ok.inj hrender).symm⟩

/-- Blanks and capitals around one id. -/
theorem normal_forms_of_capitals :
    let t := String.ofList ("\tsha256:".toList ++ List.replicate 64 'A' ++ ['\n'])
    let u := "sha256:" ++ String.ofList (List.replicate 64 'a')
    t ≠ u ∧ split? t ≠ none ∧ split? u ≠ none ∧ normalize t = normalize u ∧
      .sha256 ∈ Strategy.known ∧ Strategy.sha256.render (List.replicate 32 170) = .ok u ∧
      normalize u = .ok u := by
  intro t u
  have ht : split? t = some ("sha256", List.replicate 32 170) := by decide +kernel
  have hu : split? u = some ("sha256", List.replicate 32 170) := by decide +kernel
  have hrender : Strategy.sha256.render (List.replicate 32 170) = .ok u := by rfl
  obtain ⟨-, heq, hknown⟩ := normal_forms_canonical (t := t) (by simp [ht]) u
  exact ⟨by decide +kernel, by simp [ht], by simp [hu], heq.mpr (ht.trans hu.symm),
    List.mem_cons_self, hrender, hknown _ List.mem_cons_self _ _ hrender⟩

end ContentId

/-! ### Known extensions -/

namespace Mask

theorem Known.diff {m : Mask} (hm : m.Known) (n : Mask) : (m.diff n).Known := by
  obtain ⟨a, ha, rfl⟩ := hm
  rcases n with b | b
  · exact ⟨natDiff a b, Nat.xor_lt_two_pow ha (Nat.and_le_left.trans_lt ha), rfl⟩
  · exact ⟨a &&& b, Nat.and_le_left.trans_lt ha, rfl⟩

/-- Known extensions account for known ones only. -/
theorem Known.of_diff {m e : Mask} (he : e.Known) (h : (m.diff e).Known) : m.Known := by
  obtain ⟨b, hb, rfl⟩ := he
  obtain ⟨k, hk, hdiff⟩ := h
  rcases m with a | a
  · have hbits : a = k ^^^ (a &&& b) := by
      rw [← Int.ofNat.inj hdiff, natDiff, Nat.xor_assoc, Nat.xor_self, Nat.xor_zero]
    refine ⟨a, ?_, rfl⟩
    rw [hbits]
    exact Nat.xor_lt_two_pow hk (Nat.and_le_right.trans_lt hb)
  · cases hdiff

theorem natDiff_eq_zero {a b : Nat} : natDiff a b = 0 ↔ a &&& b = a := by
  rw [natDiff, Nat.xor_eq_zero_iff]
  exact eq_comm

theorem zero_diff (e : Mask) : Mask.diff 0 e = 0 := by
  rcases e with b | b
  · exact congrArg Int.ofNat (natDiff_eq_zero.mpr (Nat.zero_and b))
  · exact congrArg Int.ofNat (Nat.zero_and b)

/-- Two masks without bits outside a third one have none together. -/
theorem Known.union_diff {m n e : Mask} (hm : m.Known) (hn : n.Known) (h : m.diff e = 0)
    (h' : n.diff e = 0) : (m.union n).diff e = 0 := by
  obtain ⟨a, -, rfl⟩ := hm
  obtain ⟨c, -, rfl⟩ := hn
  rcases e with b | b
  · have ha := natDiff_eq_zero.mp (Int.ofNat.inj h)
    have hc := natDiff_eq_zero.mp (Int.ofNat.inj h')
    refine congrArg Int.ofNat (natDiff_eq_zero.mpr ?_)
    rw [Nat.and_or_distrib_right, ha, hc]
  · have ha : a &&& b = 0 := Int.ofNat.inj h
    have hc : c &&& b = 0 := Int.ofNat.inj h'
    refine congrArg Int.ofNat ?_
    rw [Nat.and_or_distrib_right, ha, hc]
    rfl

theorem Known.diff_full {m : Mask} (hm : m.Known) : m.diff Mask.full = 0 := by
  obtain ⟨a, ha, rfl⟩ := hm
  revert a
  decide

theorem known_of_names {m : Mask} {names : List String} (h : m.names = .ok names) : m.Known := by
  unfold Mask.names Mask.extensions? at h
  split at h
  · rename_i hext
    split_ifs at hext with hbounds
    simp only [Bool.and_eq_true, decide_eq_true_eq, show full = 15 from rfl] at hbounds
    obtain ⟨n, rfl⟩ := Int.eq_ofNat_of_zero_le hbounds.1
    exact ⟨n, Nat.lt_succ_of_le (Int.ofNat_le.mp hbounds.2), rfl⟩
  · cases h

theorem names_of_not_known {m : Mask} (h : ¬ m.Known) : m.names = .error (.unknownBits m) := by
  rcases hext : m.extensions? with _ | es
  · rw [names, hext]
  · exact absurd (known_of_names (by rw [names, hext])) h

/-- The names of known extensions and their line, which fits its length field. -/
theorem Known.names_ok {m : Mask} (h : m.Known) : ∃ names, m.names = .ok names ∧
    m.manifest = .ok (" ".intercalate names) ∧
    (Bytes.ofText (" ".intercalate names)).length < 2 ^ 16 := by
  obtain ⟨n, hn, rfl⟩ := h
  have hnames : ∀ k < 2 ^ 4, ∃ es, Mask.extensions? (Int.ofNat k) = some es ∧
      (" ".intercalate (es.map Extension.name)).toList.length ≤ 30 := by
    intro k hk
    refine ⟨Extension.all.filter (Mask.has (Int.ofNat k)), ?_, ?_⟩ <;> revert k <;> decide
  obtain ⟨es, hes, hlen⟩ := hnames n hn
  have hok : Mask.names (Int.ofNat n) = .ok (es.map Extension.name) := by
    rw [Mask.names, hes]
  refine ⟨es.map Extension.name, hok, by rw [manifest, hok]; rfl, ?_⟩
  exact (Bytes.length_ofText_le _).trans_lt (by omega)

end Mask

/-! ### Libraries -/

namespace Wire

theorem number_eq_ok {size n : Nat} (h : n < 2 ^ (8 * size)) :
    number size n = .ok (Bytes.ofNat size n) := by
  have hmod : Integer.modulus (8 * size) = 2 ^ (8 * size) := rfl
  have hlow : (0 : Int) ≤ n := by omega
  have hhigh : (n : Int) ≤ (Integer.modulus (8 * size) : Int) - 1 := by omega
  simp [number, hlow, hhigh]

theorem counted_eq_ok {size : Nat} {bytes : Bytes} (h : bytes.length < 2 ^ (8 * size)) :
    counted size bytes = .ok (Bytes.ofNat size bytes.length ++ bytes) := by
  rw [counted, number_eq_ok h]
  rfl

end Wire

namespace Library

theorem idFields_eq_ok {ids : List String} (h : ∀ id ∈ ids, ContentId.Canonical id) :
    idFields ids = .ok (ids.map fun id =>
      Bytes.ofNat 2 (Bytes.ofText id).length ++ Bytes.ofText id).flatten := by
  unfold idFields
  refine Steps.bind_eq_ok.mpr ⟨_, Steps.mapM_eq_ok.mpr ?_, rfl⟩
  refine List.forall₂_map_right_iff.mpr (List.forall₂_same.mpr fun id hid => ?_)
  rw [(h id hid).normalize_eq]
  exact Wire.counted_eq_ok (h id hid).length_ofText

theorem exists_canonicalBytes {mask : Mask} {code data : Bytes} {ids : List String}
    (hmask : mask.Known) (hcode : code.length < 2 ^ 32) (hdata : data.length < 2 ^ 32)
    (hlen : ids.length < 2 ^ 16) (hids : ∀ id ∈ ids, ContentId.Canonical id) :
    ∃ content, canonicalBytes mask code data ids = .ok content := by
  obtain ⟨names, -, hmanifest, hsize⟩ := hmask.names_ok
  have h1 : Wire.counted 2 (Bytes.ofText (" ".intercalate names)) = .ok _ :=
    Wire.counted_eq_ok hsize
  have h2 : Wire.counted 4 code = .ok _ := Wire.counted_eq_ok hcode
  have h3 : Wire.counted 4 data = .ok _ := Wire.counted_eq_ok hdata
  have h4 : Wire.number 2 ids.length = .ok _ := Wire.number_eq_ok hlen
  rw [canonicalBytes, hmanifest]
  simp only [Wire.encodeAll, Wire.encodeFrom, Wire.Field.encode, h1, h2, h3, h4,
    idFields_eq_ok hids]
  exact ⟨_, rfl⟩

/-- **A library can be named by its content**: it is built, and nothing but its id changes. -/
theorem exists_build {s : ContentId.Strategy} (hs : s ∈ ContentId.Strategy.known) {l : Library}
    (hmask : l.mask.Known) (hcode : l.code.length < 2 ^ 32) (hdata : l.data.length < 2 ^ 32)
    (hlen : l.libraries.length < 2 ^ 16) (hids : ∀ id ∈ l.libraries, ContentId.Canonical id) :
    ∃ id, build s l = .ok { l with id } ∧ ContentId.Canonical id := by
  have hnormal : l.libraries.mapM ContentId.normalize = .ok l.libraries :=
    Steps.mapM_eq_ok.mpr (List.forall₂_same.mpr fun id hid => (hids id hid).normalize_eq)
  obtain ⟨content, hcontent⟩ := exists_canonicalBytes hmask hcode hdata hlen hids
  obtain ⟨id, hid⟩ := s.exists_contentId hs content
  refine ⟨id, ?_, s.canonical_of_contentId hs hid⟩
  refine Steps.bind_eq_ok.mpr ⟨l.libraries, Steps.mapError_ok_iff.mpr hnormal, ?_⟩
  refine Steps.bind_eq_ok.mpr ⟨content, hcontent, ?_⟩
  exact Steps.bind_eq_ok.mpr ⟨id, Steps.mapError_ok_iff.mpr hid, rfl⟩

/-- The content of a library: what its id stands for. -/
def content (l : Library) : Except Failure Bytes := canonicalBytes l.mask l.code l.data l.libraries

theorem verify_eq_ok_true {l : Library} : l.verify = .ok true ↔ ∃ s content,
    ContentId.strategyOf l.id = .ok s ∧ l.content = .ok content ∧
      s.contentId content = .ok l.id := by
  unfold verify
  constructor
  · intro h
    split at h
    · cases h
    · next s hs =>
      obtain ⟨content, hcontent, h⟩ := Steps.bind_eq_ok.mp h
      obtain ⟨id, hid, h⟩ := Steps.bind_eq_ok.mp h
      obtain rfl : id = l.id := by simpa using Except.ok.inj h
      exact ⟨s, content, hs, hcontent, Steps.mapError_ok_iff.mp hid⟩
  · rintro ⟨s, content, hs, hcontent, hid⟩
    rw [hs]
    refine Steps.bind_eq_ok.mpr ⟨content, hcontent, ?_⟩
    refine Steps.bind_eq_ok.mpr ⟨l.id, Steps.mapError_ok_iff.mpr hid, ?_⟩
    rw [decide_eq_true rfl]
    rfl

/-- A library whose id is that of its content has known extensions and a canonical id. -/
theorem canonical_of_verify {l : Library} (h : l.verify = .ok true) :
    l.mask.Known ∧ ContentId.Canonical l.id := by
  obtain ⟨s, content, hs, hcontent, hid⟩ := verify_eq_ok_true.mp h
  refine ⟨?_, s.canonical_of_contentId (ContentId.mem_known_of_strategyOf hs) hid⟩
  unfold Library.content canonicalBytes at hcontent
  split at hcontent
  · cases hcontent
  · next manifest hmanifest =>
    obtain ⟨names, hnames, -⟩ := Steps.map_eq_ok.mp hmanifest
    exact Mask.known_of_names hnames

end Library

end AluVM
