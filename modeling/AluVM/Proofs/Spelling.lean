import AluVM.Proofs.Forms

/-! # Values spelled by fields

The writer turns a value into a list of fields and the fields into bytes. `Spells r F` says that a
reader takes exactly the bytes of the lists of fields that `F` gives its values, so that what a
reader and a writer agree on is an equation between lists of fields. The fields determine the
value, and the bytes determine the fields as soon as the kinds of the fields are given:
`encodeAll_unique`. -/

namespace AluVM.Wire

variable {α β : Type}

/-! ### Fields that are told apart by their bytes -/

/-- Fields of one kind that hold no other fields. -/
inductive Field.Alike : Field → Field → Prop
  | u8 (v w : Int) : Alike (.u8 v) (.u8 w)
  | u16 (v w : Int) : Alike (.u16 v) (.u16 w)
  | u32 (v w : Int) : Alike (.u32 v) (.u32 w)
  | text (s t : String) : Alike (.text s) (.text t)
  | blob (x y : Bytes) : Alike (.blob x) (.blob y)

theorem number_unique {size : Nat} {v w : Int} {x y u t : Bytes} (hv : number size v = .ok x)
    (hw : number size w = .ok y) (h : x ++ u = y ++ t) : v = w ∧ u = t := by
  obtain ⟨m, rfl, -, -⟩ := number_eq_ok_iff.mp hv
  obtain ⟨n, rfl, -, -⟩ := number_eq_ok_iff.mp hw
  obtain ⟨rfl, -, rfl⟩ := (reads_number size).unique hv hw h
  exact ⟨rfl, rfl⟩

theorem Field.Alike.unique {f g : Field} (hfg : f.Alike g) {x y u t : Bytes}
    (hf : f.encode = .ok x) (hg : g.encode = .ok y) (h : x ++ u = y ++ t) : f = g ∧ u = t := by
  cases hfg with
  | u8 v w | u16 v w | u32 v w =>
    obtain ⟨rfl, rfl⟩ := number_unique hf hg h
    exact ⟨rfl, rfl⟩
  | text s s' =>
    obtain ⟨rfl, -, rfl⟩ := reads_text.unique hf hg h
    exact ⟨rfl, rfl⟩
  | blob b b' =>
    obtain ⟨rfl, -, rfl⟩ := reads_blob.unique hf hg h
    exact ⟨rfl, rfl⟩

/-- **Bytes determine their fields**, if the kinds of the fields are given. -/
theorem encodeAll_unique {fs gs : List Field} (hkinds : List.Forall₂ Field.Alike fs gs) :
    ∀ {x y u t : Bytes}, encodeAll fs = .ok x → encodeAll gs = .ok y → x ++ u = y ++ t →
      fs = gs ∧ u = t := by
  induction hkinds with
  | nil =>
    intro x y u t hx hy h
    rw [encodeAll_nil] at hx hy
    rw [hx, hy] at h
    exact ⟨rfl, h⟩
  | cons hfg _ ih =>
    intro x y u t hx hy h
    obtain ⟨x₁, x₂, hx₁, hx₂, rfl⟩ := encodeAll_cons.mp hx
    obtain ⟨y₁, y₂, hy₁, hy₂, rfl⟩ := encodeAll_cons.mp hy
    rw [List.append_assoc, List.append_assoc] at h
    obtain ⟨rfl, h⟩ := hfg.unique hx₁ hy₁ h
    obtain ⟨rfl, rfl⟩ := ih hx₂ hy₂ h
    exact ⟨rfl, rfl⟩

/-! ### Readers of fields -/

/-- Bytes as fields, one each. -/
def byteFields (bytes : Bytes) : List Field := bytes.map fun b => .u8 b.toNat

@[simp] theorem encodeAll_byteFields {bytes form : Bytes} :
    encodeAll (byteFields bytes) = .ok form ↔ form = bytes := by
  induction bytes generalizing form with
  | nil => simp [byteFields]
  | cons b bytes ih =>
    have hb : number 1 b.toNat = .ok [b] := by
      rw [number_eq_ok b.toNat_lt]
      simp [Bytes.ofNat]
    rw [byteFields, List.map_cons, encodeAll_cons]
    constructor
    · rintro ⟨x, y, hx, hy, rfl⟩
      obtain rfl : [b] = x := Except.ok.inj (hb.symm.trans hx)
      rw [ih.mp hy]
      rfl
    · rintro rfl
      exact ⟨[b], bytes, hb, ih.mpr rfl, rfl⟩

/-- A number in a field is natural. -/
theorem natural_of_u32 {fs : List Field} {form : Bytes} {v : Int} (h : encodeAll fs = .ok form)
    (hv : .u32 v ∈ fs) : ∃ n : Nat, v = n := by
  obtain ⟨x, hx⟩ := encode_of_mem h _ hv
  obtain ⟨n, rfl, -, -⟩ := number_eq_ok_iff.mp hx
  exact ⟨n, rfl⟩

theorem encode_nested {fs : List Field} {form : Bytes} : (Field.nested fs).encode = .ok form ↔
    ∃ body, encodeAll fs = .ok body ∧ counted 4 body = .ok form := by
  rw [Field.encode, Steps.bind_eq_ok]
  rfl

/-- A section can be written without the bytes at its end. -/
theorem encode_nested_of_extra {fs : List Field} {extra form : Bytes}
    (h : (Field.nested (fs ++ byteFields extra)).encode = .ok form) :
    ∃ short, (Field.nested fs).encode = .ok short ∧ form.length = short.length + extra.length := by
  obtain ⟨body, hbody, hform⟩ := encode_nested.mp h
  obtain ⟨x, y, hx, hy, rfl⟩ := encodeAll_append.mp hbody
  obtain rfl := encodeAll_byteFields.mp hy
  obtain ⟨hlt, rfl⟩ := counted_eq_ok_iff.mp hform
  rw [List.length_append] at hlt
  refine ⟨_, encode_nested.mpr ⟨x, hx, counted_eq_ok (by omega)⟩, ?_⟩
  simp only [List.length_append, Bytes.length_ofNat]
  omega

/-- **The reader reads exactly the bytes of the fields of its values.** -/
def Spells (r : Read α) (F : α → List Field → Prop) : Prop :=
  Reads r fun a form => ∃ fs, F a fs ∧ encodeAll fs = .ok form

namespace Spells

variable {r : Read α} {F G : α → List Field → Prop}

/-- Only fields that can be written count. -/
theorem congr_of_encoded (h : Spells r F)
    (hFG : ∀ a fs form, encodeAll fs = .ok form → (F a fs ↔ G a fs)) : Spells r G :=
  Reads.congr h fun a form => exists_congr fun fs => and_congr_left fun hfs => hFG a fs form hfs

theorem congr (h : Spells r F) (hFG : ∀ a fs, F a fs ↔ G a fs) : Spells r G :=
  h.congr_of_encoded fun a fs _ _ => hFG a fs

theorem pure (a : α) : Spells (Pure.pure a) fun b fs => b = a ∧ fs = [] :=
  (Reads.pure a).congr fun b form => by
    constructor
    · rintro ⟨rfl, rfl⟩
      exact ⟨[], ⟨rfl, rfl⟩, encodeAll_nil.mpr rfl⟩
    · rintro ⟨-, ⟨rfl, rfl⟩, h⟩
      exact ⟨rfl, encodeAll_nil.mp h⟩

theorem bind {f : α → Read β} {H : α → β → List Field → Prop} (h : Spells r F)
    (hf : ∀ a, Spells (f a) (H a)) :
    Spells (r >>= f) fun b fs => ∃ a xs ys, F a xs ∧ H a b ys ∧ fs = xs ++ ys := by
  refine (Reads.bind h hf).congr fun b form => ?_
  constructor
  · rintro ⟨a, x, y, ⟨xs, hF, hx⟩, ⟨ys, hH, hy⟩, rfl⟩
    exact ⟨xs ++ ys, ⟨a, xs, ys, hF, hH, rfl⟩, encodeAll_append.mpr ⟨x, y, hx, hy, rfl⟩⟩
  · rintro ⟨-, ⟨a, xs, ys, hF, hH, rfl⟩, h⟩
    obtain ⟨x, y, hx, hy, rfl⟩ := encodeAll_append.mp h
    exact ⟨a, x, y, ⟨xs, hF, hx⟩, ⟨ys, hH, hy⟩, rfl⟩

/-- A value with several parts, read one after the other. What is read after a part knows of the
parts before it (`C`) and of the part itself. -/
theorem part {k : α → Read β} {C : β → Prop} {R : α → β → List Field → Prop} (h : Spells r F)
    (get : β → α) (hk : ∀ a, Spells (k a) fun b fs => (C b ∧ get b = a) ∧ R a b fs) :
    Spells (r >>= k) fun b fs =>
      C b ∧ ∃ xs, F (get b) xs ∧ ∃ ys, R (get b) b ys ∧ xs ++ ys = fs := by
  refine (h.bind hk).congr fun b fs => ?_
  constructor
  · rintro ⟨a, xs, ys, hF, ⟨⟨hC, rfl⟩, hR⟩, rfl⟩
    exact ⟨hC, xs, hF, ys, hR, rfl⟩
  · rintro ⟨hC, xs, hF, ys, hR, rfl⟩
    exact ⟨_, xs, ys, hF, ⟨⟨hC, rfl⟩, hR⟩, rfl⟩

theorem field {f : α → Field} (h : Reads r fun a form => (f a).encode = .ok form) :
    Spells r fun a fs => fs = [f a] :=
  h.congr fun a form => by simp

theorem u8 : Spells Wire.u8 fun n fs => fs = [.u8 n] := field (reads_number 1)

theorem u16 : Spells Wire.u16 fun n fs => fs = [.u16 n] := field (reads_number 2)

theorem u32 : Spells Wire.u32 fun n fs => fs = [.u32 n] := field (reads_number 4)

theorem text : Spells Wire.text fun s fs => fs = [.text s] := field reads_text

theorem blob : Spells Wire.blob fun bytes fs => fs = [.blob bytes] := field reads_blob

/-- A check that consumes nothing: a value that has to be there. -/
theorem ofOption {o : Option β} {f : β → α} (hsome : ∀ b, o = some b → r = Pure.pure (f b))
    (hnone : o = none → ∃ e, r = throw e) :
    Spells r fun a fs => (∃ b, o = some b ∧ a = f b) ∧ fs = [] := by
  rcases o with _ | b
  · obtain ⟨e, rfl⟩ := hnone rfl
    refine (Reads.never fun s a t => ?_).congr fun a form => ?_ <;> simp
  · rw [hsome b rfl]
    refine (Spells.pure (f b)).congr fun a fs => ?_
    simp

/-- A section that is read to its end. -/
theorem inside_whole (h : Spells r F) : Spells (inside (whole r)) fun a fs =>
    ∃ inner, F a inner ∧ fs = [.nested inner] := by
  refine (Reads.inside_whole h).congr fun a form => ?_
  constructor
  · rintro ⟨body, ⟨inner, hF, hbody⟩, hform⟩
    refine ⟨_, ⟨inner, hF, rfl⟩, ?_⟩
    exact encodeAll_singleton.mpr (encode_nested.mpr ⟨body, hbody, hform⟩)
  · rintro ⟨-, ⟨inner, hF, rfl⟩, h⟩
    obtain ⟨body, hbody, hform⟩ := encode_nested.mp (encodeAll_singleton.mp h)
    exact ⟨body, ⟨inner, hF, hbody⟩, hform⟩

/-- A section that is not read to its end: any bytes may follow. -/
theorem inside (h : Spells r F) : Spells (inside r) fun a fs =>
    ∃ inner extra, F a inner ∧ fs = [.nested (inner ++ byteFields extra)] := by
  refine (Reads.inside h).congr fun a form => ?_
  constructor
  · rintro ⟨-, ⟨x, extra, ⟨inner, hF, hx⟩, rfl⟩, hform⟩
    refine ⟨_, ⟨inner, extra, hF, rfl⟩, encodeAll_singleton.mpr (encode_nested.mpr ⟨_, ?_, hform⟩)⟩
    exact encodeAll_append.mpr ⟨x, extra, hx, encodeAll_byteFields.mpr rfl, rfl⟩
  · rintro ⟨-, ⟨inner, extra, hF, rfl⟩, h⟩
    obtain ⟨body, hbody, hform⟩ := encode_nested.mp (encodeAll_singleton.mp h)
    obtain ⟨x, y, hx, hy, rfl⟩ := encodeAll_append.mp hbody
    rw [encodeAll_byteFields] at hy
    exact ⟨x ++ y, ⟨x, extra, ⟨inner, hF, hx⟩, by rw [hy]⟩, hform⟩

/-- Things of one kind, one after the other. -/
theorem times (h : Spells r F) (n : Nat) : Spells (times n r) fun as fs =>
    as.length = n ∧ ∃ fss, List.Forall₂ F as fss ∧ fs = fss.flatten := by
  refine (Reads.times h n).congr fun as form => ?_
  constructor
  · rintro ⟨rfl, forms, hforms, rfl⟩
    suffices key : ∃ fss, List.Forall₂ F as fss ∧ encodeAll fss.flatten = .ok forms.flatten by
      obtain ⟨fss, hfss, hform⟩ := key
      exact ⟨_, ⟨rfl, fss, hfss, rfl⟩, hform⟩
    induction hforms with
    | nil => exact ⟨[], .nil, encodeAll_nil.mpr rfl⟩
    | cons hx _ ih =>
      obtain ⟨xs, hF, hx⟩ := hx
      obtain ⟨fss, hfss, hrest⟩ := ih
      exact ⟨xs :: fss, .cons hF hfss, encodeAll_append.mpr ⟨_, _, hx, hrest, rfl⟩⟩
  · rintro ⟨-, ⟨rfl, fss, hfss, rfl⟩, h⟩
    refine ⟨rfl, ?_⟩
    induction hfss generalizing form with
    | nil => exact ⟨[], .nil, encodeAll_nil.mp h⟩
    | cons hF _ ih =>
      obtain ⟨x, y, hx, hy, rfl⟩ := encodeAll_append.mp h
      obtain ⟨forms, hforms, rfl⟩ := ih _ hy
      exact ⟨x :: forms, .cons ⟨_, hF, hx⟩ hforms, rfl⟩

/-- **All of given bytes are read exactly if they are those of fields of the value.** -/
theorem readAll_eq_ok (h : Spells r F) {what : String} {bytes : Bytes} {a : α} :
    readAll what r bytes = .ok a ↔ ∃ fs, F a fs ∧ encodeAll fs = .ok bytes :=
  Reads.readAll_eq_ok h

end Spells

/-- A list of things that have a property, each with its fields, behind its length. -/
theorem Spells.list_of {r : Read α} {count : Read Nat} {length : Int → Field} {P : α → Prop}
    {fields : α → List Field} (hcount : Spells count fun n fs => fs = [length n])
    (h : Spells r fun a fs => P a ∧ fs = fields a) :
    Spells (do Wire.times (← count) r) fun as fs =>
      (∀ a ∈ as, P a) ∧ fs = length as.length :: as.flatMap fields := by
  refine (hcount.bind h.times).congr fun as fs => ?_
  have hforms : ∀ fss, List.Forall₂ (fun a fs => P a ∧ fs = fields a) as fss ↔
      (∀ a ∈ as, P a) ∧ fss = as.map fields := by
    intro fss
    have heq : List.Forall₂ (· = ·) fss (as.map fields) ↔ fss = as.map fields := by
      rw [List.forall₂_eq_eq_eq]
    rw [List.forall₂_and_left, ← heq, List.forall₂_map_right_iff]
    exact and_congr_right' ⟨List.Forall₂.flip, List.Forall₂.flip⟩
  simp only [hforms]
  constructor
  · rintro ⟨n, xs, ys, rfl, ⟨rfl, fss, ⟨hP, rfl⟩, rfl⟩, rfl⟩
    exact ⟨hP, by simp [List.flatMap]⟩
  · rintro ⟨hP, rfl⟩
    exact ⟨_, _, _, rfl, ⟨rfl, _, ⟨hP, rfl⟩, rfl⟩, by simp [List.flatMap]⟩

theorem Spells.list {r : Read α} {count : Read Nat} {length : Int → Field}
    {fields : α → List Field} (hcount : Spells count fun n fs => fs = [length n])
    (h : Spells r fun a fs => fs = fields a) :
    Spells (do Wire.times (← count) r) fun as fs =>
      fs = length as.length :: as.flatMap fields := by
  have hall : Spells r fun a fs => True ∧ fs = fields a := h.congr fun a fs => by simp
  exact (hcount.list_of hall).congr fun as fs => by simp

/-! ### Headers -/

/-- The bytes of a header, part by part. -/
theorem header_eq_ok_iff {magic : Bytes} {version : Nat} {mask : Mask} {entry : Option Int}
    {form : Bytes} (hversion : version < 2 ^ 16) : header magic version mask entry = .ok form ↔
      ∃ m e : Nat, mask = m ∧ entry.getD noEntry = e ∧ m < 2 ^ 32 ∧ e < 2 ^ 32 ∧
        form = magic ++ (Bytes.ofNat 2 version ++ (Bytes.ofNat 4 m ++ Bytes.ofNat 4 e)) := by
  rw [header, Steps.bind_eq_ok]
  simp only [encodeAll_cons, encodeAll_nil, Field.encode, number_eq_ok_iff]
  constructor
  · rintro ⟨body, ⟨x, y, ⟨v, hv, -, rfl⟩, ⟨x', y', ⟨m, hm, hmlt, rfl⟩,
      ⟨x'', y'', ⟨e, he, helt, rfl⟩, rfl, rfl⟩, rfl⟩, rfl⟩, hform⟩
    obtain rfl : version = v := by exact_mod_cast hv
    refine ⟨m, e, hm, he, hmlt, helt, ?_⟩
    rw [← Except.ok.inj hform, List.append_nil]
  · rintro ⟨m, e, rfl, he, hmlt, helt, rfl⟩
    refine ⟨_, ⟨_, _, ⟨version, rfl, hversion, rfl⟩, ⟨_, _, ⟨m, rfl, hmlt, rfl⟩, ⟨_, _,
      ⟨e, he, helt, rfl⟩, rfl, rfl⟩, rfl⟩, rfl⟩, ?_⟩
    rw [List.append_nil]
    rfl

/-- The parts of the bytes of a header. -/
theorem header_parts {magic bytes : Bytes} {version m e : Nat} (hmagic : magic.length = 4)
    (hversion : version < 2 ^ 16) (hm : m < 2 ^ 32) (he : e < 2 ^ 32) :
    bytes = magic ++ (Bytes.ofNat 2 version ++ (Bytes.ofNat 4 m ++ Bytes.ofNat 4 e)) ↔
      bytes.length = headerSize ∧ bytes.take 4 = magic ∧
        Bytes.toNat ((bytes.drop 4).take 2) = version ∧
        Bytes.toNat ((bytes.drop 6).take 4) = m ∧ Bytes.toNat (bytes.drop 10) = e := by
  constructor
  · rintro rfl
    have h6 : magic.drop 6 = [] := List.drop_eq_nil_of_le (by omega)
    have h10 : magic.drop 10 = [] := List.drop_eq_nil_of_le (by omega)
    have hv6 : (Bytes.ofNat 2 version).drop 6 = [] := List.drop_eq_nil_of_le (by simp)
    refine ⟨by simp [hmagic, headerSize], by simp [hmagic], ?_, ?_, ?_⟩
    · simp [hmagic, Bytes.toNat_ofNat (show version < 2 ^ (8 * 2) from hversion)]
    · simp [List.drop_append, hmagic, h6, Bytes.toNat_ofNat (show m < 2 ^ (8 * 4) from hm)]
    · simp [List.drop_append, hmagic, h10, hv6,
        Bytes.toNat_ofNat (show e < 2 ^ (8 * 4) from he)]
  · rintro ⟨hlen, rfl, rfl, rfl, rfl⟩
    have hlen : bytes.length = 14 := hlen
    have h1 : ((bytes.drop 4).take 2).length = 2 := by simp [hlen]
    have h2 : ((bytes.drop 6).take 4).length = 4 := by simp [hlen]
    have h3 : (bytes.drop 10).length = 4 := by simp [hlen]
    rw [Bytes.ofNat_toNat_of_length h1, Bytes.ofNat_toNat_of_length h2,
      Bytes.ofNat_toNat_of_length h3, show bytes.drop 10 = (bytes.drop 6).drop 4 by simp,
      List.take_append_drop, show bytes.drop 6 = (bytes.drop 4).drop 2 by simp,
      List.take_append_drop, List.take_append_drop]

/-- The entry that the last number of a header stands for. -/
theorem getD_entry (e : Nat) :
    (if e = noEntry then none else some (e : Int)).getD (noEntry : Int) = e := by
  split
  · next h => rw [h]; rfl
  · rfl

theorem reads_header {magic : Bytes} {version : Nat} (hmagic : magic.length = 4)
    (hversion : version < 2 ^ 16) : Reads (readHeader magic version) fun x form =>
      x.2 ≠ some (noEntry : Int) ∧ header magic version x.1 x.2 = .ok form := by
  -- The two checks consume nothing, so they only narrow what the bytes of a header may be.
  have hcheck : ∀ bytes : Bytes, Reads (do
      let what := (← get).what
      if bytes.take 4 ≠ magic then throw (.badMagic what (bytes.take 4))
      let found := Bytes.toNat ((bytes.drop 4).take 2)
      if found ≠ version then throw (.badVersion what found)
      let mask := Bytes.toNat ((bytes.drop 6).take 4)
      let entry := Bytes.toNat (bytes.drop 10)
      return ((mask : Mask), if entry = noEntry then none else some (entry : Int)))
      fun x form => (bytes.take 4 = magic ∧ Bytes.toNat ((bytes.drop 4).take 2) = version) ∧
        (x = ((Bytes.toNat ((bytes.drop 6).take 4) : Mask),
          if Bytes.toNat (bytes.drop 10) = noEntry then none
          else some (Bytes.toNat (bytes.drop 10) : Int)) ∧ form = []) := by
    intro bytes what pos rest x next
    rw [outcome_bind, outcome_get]
    by_cases hm : bytes.take 4 = magic
    · by_cases hv : Bytes.toNat ((bytes.drop 4).take 2) = version
      · simp only [hm, hv, ne_eq, not_true_eq_false, if_false, and_self, true_and]
        exact Reads.pure _ what pos rest x next
      · simp [hm, hv]
    · simp [hm]
  refine ((reads_take headerSize).bind hcheck).congr fun x form => ?_
  rw [header_eq_ok_iff hversion]
  constructor
  · rintro ⟨_, bytes, _, ⟨rfl, hlen⟩, ⟨⟨hm, hv⟩, rfl, rfl⟩, rfl⟩
    have hmask : Bytes.toNat ((bytes.drop 6).take 4) < 2 ^ 32 := by
      have hparts : ((bytes.drop 6).take 4).length = 4 := by simp [hlen, headerSize]
      simpa [hparts] using Bytes.toNat_lt ((bytes.drop 6).take 4)
    have hentry : Bytes.toNat (bytes.drop 10) < 2 ^ 32 := by
      simpa [hlen, headerSize] using Bytes.toNat_lt (bytes.drop 10)
    refine ⟨?_, _, _, rfl, getD_entry _, hmask, hentry, ?_⟩
    · split
      · simp
      · next h => exact fun hsome => h (Int.ofNat.inj (Option.some.inj hsome))
    · rw [List.append_nil]
      exact (header_parts hmagic hversion hmask hentry).mpr ⟨hlen, hm, hv, rfl, rfl⟩
  · obtain ⟨mask, entry⟩ := x
    rintro ⟨hentry, m, e, rfl, he, hmlt, helt, hform⟩
    obtain ⟨hlen, hm, hv, rfl, rfl⟩ := (header_parts hmagic hversion hmlt helt).mp hform
    refine ⟨form, form, [], ⟨rfl, hlen⟩, ⟨⟨hm, hv⟩, ?_, rfl⟩, (List.append_nil _).symm⟩
    rcases entry with _ | v
    · obtain he : (noEntry : Int) = _ := he
      rw [if_pos (by exact_mod_cast he.symm)]
    · obtain rfl : v = _ := he
      rw [if_neg fun heq => hentry (congrArg (fun n : Nat => some (n : Int)) heq)]

/-- The fields of a header. -/
def headerFields (magic : Bytes) (version : Nat) (mask : Mask) (entry : Option Int) : List Field :=
  byteFields magic ++ [.u16 version, .u32 mask, .u32 (entry.getD noEntry)]

theorem header_eq_ok {magic form : Bytes} {version : Nat} {mask : Mask} {entry : Option Int} :
    header magic version mask entry = .ok form ↔
      encodeAll (headerFields magic version mask entry) = .ok form := by
  rw [header, Steps.bind_eq_ok, headerFields, encodeAll_append]
  constructor
  · rintro ⟨y, hy, hform⟩
    exact ⟨magic, y, encodeAll_byteFields.mpr rfl, hy, (Except.ok.inj hform).symm⟩
  · rintro ⟨x, y, hx, hy, rfl⟩
    rw [encodeAll_byteFields.mp hx]
    exact ⟨y, hy, rfl⟩

/-- A file with a header starts with the first byte of its mark. -/
theorem head?_of_header {magic raw : Bytes} {version : Nat} {mask : Mask} {entry : Option Int}
    {fs : List Field} {first : UInt8} (hfirst : magic.head? = some first)
    (h : encodeAll (headerFields magic version mask entry ++ fs) = .ok raw) :
    raw.head? = some first := by
  obtain ⟨x, y, hx, -, rfl⟩ := encodeAll_append.mp h
  obtain ⟨z, u, hz, -, rfl⟩ := encodeAll_append.mp hx
  rw [encodeAll_byteFields.mp hz, List.append_assoc, List.head?_append, hfirst]
  rfl

theorem Spells.header {magic : Bytes} {version : Nat} (hmagic : magic.length = 4)
    (hversion : version < 2 ^ 16) : Spells (readHeader magic version) fun x fs =>
      x.2 ≠ some (noEntry : Int) ∧ fs = headerFields magic version x.1 x.2 :=
  (reads_header hmagic hversion).congr fun x form => by
    rw [header_eq_ok]
    constructor
    · rintro ⟨hentry, hform⟩
      exact ⟨_, ⟨hentry, rfl⟩, hform⟩
    · rintro ⟨-, ⟨hentry, rfl⟩, hform⟩
      exact ⟨hentry, hform⟩

end AluVM.Wire
