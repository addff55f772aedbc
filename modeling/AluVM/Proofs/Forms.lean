import AluVM.Proofs.Identity
import AluVM.Proofs.Utf8

/-! # The forms of what is read

A form of a value is a byte string that stands for it in a file. `Reads r R` says that a reader
takes exactly the forms of a relation: it succeeds on bytes if and only if they start with a form,
and then it returns the value of that form and stands behind it. This is one statement for both
directions, so that a reader built from others needs one proof: what it accepts is what the
relation describes, and everything that the relation describes is accepted.

The relations are given by the writer, field by field (`number`, `counted`, `Field.encode`), with
what a reader does not tell apart as a condition beside them. A relation that is read has at most
one form at the start of any bytes: `Reads.unique`. -/

namespace AluVM

/-! ### Numbers -/

namespace Wire

theorem number_eq_ok_iff {size : Nat} {v : Int} {form : Bytes} : number size v = .ok form ↔
    ∃ n : Nat, v = n ∧ n < 2 ^ (8 * size) ∧ form = Bytes.ofNat size n := by
  constructor
  · intro h
    unfold number at h
    split_ifs at h with hrange
    simp only [Bool.and_eq_true, decide_eq_true_eq] at hrange
    obtain ⟨hlow, hhigh⟩ := hrange
    have hmod : Integer.modulus (8 * size) = 2 ^ (8 * size) := rfl
    obtain ⟨n, rfl⟩ := Int.eq_ofNat_of_zero_le hlow
    exact ⟨n, rfl, by omega, (Except.ok.inj h).symm⟩
  · rintro ⟨n, rfl, hn, rfl⟩
    exact number_eq_ok hn

theorem counted_eq_ok_iff {size : Nat} {bytes form : Bytes} : counted size bytes = .ok form ↔
    bytes.length < 2 ^ (8 * size) ∧ form = Bytes.ofNat size bytes.length ++ bytes := by
  constructor
  · intro h
    obtain ⟨length, hlength, h⟩ := Steps.bind_eq_ok.mp h
    obtain ⟨n, hn, hlt, rfl⟩ := number_eq_ok_iff.mp hlength
    obtain rfl : bytes.length = n := by exact_mod_cast hn
    exact ⟨hlt, (Except.ok.inj h).symm⟩
  · rintro ⟨hlt, rfl⟩
    exact counted_eq_ok hlt

theorem number_yields (size : Nat) (v : Int) :
    Steps.Yields (fun _ => True) (· = .fieldRange) (number size v) := by
  unfold number
  split_ifs
  · trivial
  · exact rfl

theorem counted_yields (size : Nat) (bytes : Bytes) :
    Steps.Yields (fun _ => True) (· = .fieldRange) (counted size bytes) :=
  (number_yields size _).bind fun _ _ => trivial

mutual

theorem Field.encode_yields : ∀ f : Field,
    Steps.Yields (fun _ => True) (· = .fieldRange) f.encode
  | .u8 v => number_yields 1 v
  | .u16 v => number_yields 2 v
  | .u32 v => number_yields 4 v
  | .text s => counted_yields 2 _
  | .blob bytes => counted_yields 4 bytes
  | .nested fields => by
    rw [Field.encode]
    exact (encodeFrom_yields [] fields).bind fun _ _ => counted_yields 4 _

/-- **Writing fails only because something is too large for its field.** -/
theorem encodeFrom_yields : ∀ (done : Bytes) (fields : List Field),
    Steps.Yields (fun _ => True) (· = .fieldRange) (encodeFrom done fields)
  | _, [] => by
    rw [encodeFrom]
    trivial
  | _, f :: fs => by
    rw [encodeFrom]
    exact (Field.encode_yields f).bind fun _ _ => encodeFrom_yields _ fs

end

/-! ### Fields one after the other -/

theorem encodeFrom_eq (done : Bytes) (fields : List Field) :
    encodeFrom done fields = (done.reverse ++ ·) <$> encodeAll fields := by
  induction fields generalizing done with
  | nil => simp [encodeAll, encodeFrom, Functor.map, Except.map]
  | cons f fs ih =>
    simp only [encodeAll, encodeFrom] at ih ⊢
    rcases f.encode with e | bytes
    · rfl
    · simp only [bind, Except.bind]
      rw [ih, ih (bytes.reverse ++ [])]
      cases encodeFrom [] fs <;> simp [Functor.map, Except.map]

@[simp] theorem encodeAll_nil {form : Bytes} : encodeAll [] = .ok form ↔ form = [] := by
  simp [encodeAll, encodeFrom, eq_comm]

theorem encodeAll_cons {f : Field} {fs : List Field} {form : Bytes} :
    encodeAll (f :: fs) = .ok form ↔
      ∃ x y, f.encode = .ok x ∧ encodeAll fs = .ok y ∧ form = x ++ y := by
  rw [encodeAll, encodeFrom, Steps.bind_eq_ok]
  refine exists_congr fun x => ?_
  rw [encodeFrom_eq, Steps.map_eq_ok]
  simp only [List.append_nil, List.reverse_reverse]
  constructor
  · rintro ⟨hx, y, hy, rfl⟩
    exact ⟨y, hx, hy, rfl⟩
  · rintro ⟨y, hx, hy, rfl⟩
    exact ⟨hx, y, hy, rfl⟩

@[simp] theorem encodeAll_singleton {f : Field} {form : Bytes} :
    encodeAll [f] = .ok form ↔ f.encode = .ok form := by
  rw [encodeAll_cons]
  simp only [encodeAll_nil]
  constructor
  · rintro ⟨x, -, hx, rfl, rfl⟩
    rwa [List.append_nil]
  · intro h
    exact ⟨form, [], h, rfl, (List.append_nil form).symm⟩

theorem encodeAll_append {fs gs : List Field} {form : Bytes} :
    encodeAll (fs ++ gs) = .ok form ↔
      ∃ x y, encodeAll fs = .ok x ∧ encodeAll gs = .ok y ∧ form = x ++ y := by
  induction fs generalizing form with
  | nil => simp
  | cons f fs ih =>
    simp only [List.cons_append, encodeAll_cons, ih]
    constructor
    · rintro ⟨x, -, hx, ⟨y, z, hy, hz, rfl⟩, rfl⟩
      exact ⟨x ++ y, z, ⟨x, y, hx, hy, rfl⟩, hz, (List.append_assoc ..).symm⟩
    · rintro ⟨-, z, ⟨x, y, hx, hy, rfl⟩, hz, rfl⟩
      exact ⟨x, y ++ z, hx, ⟨y, z, hy, hz, rfl⟩, List.append_assoc ..⟩

theorem encode_of_mem {fs : List Field} {form : Bytes} (h : encodeAll fs = .ok form) :
    ∀ f ∈ fs, ∃ x, f.encode = .ok x := by
  induction fs generalizing form with
  | nil => simp
  | cons f fs ih =>
    obtain ⟨x, y, hx, hy, -⟩ := encodeAll_cons.mp h
    exact List.forall_mem_cons.mpr ⟨⟨x, hx⟩, ih hy⟩

/-- The fields of a list of things: one form for each of them. -/
theorem encodeAll_flatMap {α : Type} {fields : α → List Field} {as : List α} {form : Bytes} :
    encodeAll (as.flatMap fields) = .ok form ↔
      ∃ forms, List.Forall₂ (fun a x => encodeAll (fields a) = .ok x) as forms ∧
        form = forms.flatten := by
  induction as generalizing form with
  | nil => simp
  | cons a as ih =>
    simp only [List.flatMap_cons, encodeAll_append, ih, List.forall₂_cons_left_iff]
    constructor
    · rintro ⟨x, -, hx, ⟨forms, hforms, rfl⟩, rfl⟩
      exact ⟨x :: forms, ⟨x, forms, hx, hforms, rfl⟩, rfl⟩
    · rintro ⟨-, ⟨x, forms, hx, hforms, rfl⟩, rfl⟩
      exact ⟨x, forms.flatten, hx, ⟨forms, hforms, rfl⟩, rfl⟩

/-! ### Readers -/

/-- A reader at a position, in front of the given bytes. -/
def Reader.before (what : String) (pos : Nat) (rest : Bytes) : Reader :=
  ⟨what, pos + rest.length, pos, rest⟩

theorem Reader.ofBytes_eq (what : String) (bytes : Bytes) :
    Reader.ofBytes what bytes = .before what 0 bytes := by
  simp [ofBytes, before]

variable {α β : Type}

/-- What a reader comes to: its result, and where it stands then. -/
def outcome (r : Read α) (s : Reader) : Except FormatError α × Reader := r.run s

/-- **The reader reads exactly the forms of a relation.** -/
def Reads (r : Read α) (R : α → Bytes → Prop) : Prop :=
  ∀ what pos bytes a next, outcome r (.before what pos bytes) = (.ok a, next) ↔
    ∃ form rest, R a form ∧ bytes = form ++ rest ∧ next = .before what (pos + form.length) rest

theorem outcome_bind (r : Read α) (f : α → Read β) (s : Reader) :
    outcome (r >>= f) s = match outcome r s with
      | (.ok a, t) => outcome (f a) t
      | (.error e, t) => (.error e, t) := by
  show (StateT.bind (ExceptT.run r) (ExceptT.bindCont f) s : Except FormatError β × Reader) = _
  unfold StateT.bind
  show (match outcome r s with | (x, t) => (ExceptT.bindCont f x).run t) = _
  rcases outcome r s with ⟨e | a, t⟩ <;> rfl

theorem outcome_bind_eq_ok {r : Read α} {f : α → Read β} {s t : Reader} {b : β} :
    outcome (r >>= f) s = (.ok b, t) ↔
      ∃ a u, outcome r s = (.ok a, u) ∧ outcome (f a) u = (.ok b, t) := by
  rw [outcome_bind]
  rcases outcome r s with ⟨e | a, u⟩ <;> simp

namespace Reads

variable {r : Read α} {R S : α → Bytes → Prop}

theorem congr (h : Reads r R) (hRS : ∀ a form, R a form ↔ S a form) : Reads r S := by
  intro what pos bytes a next
  rw [h]
  simp only [hRS]

/-- No bytes start with two forms: a form is told apart from the others by itself. -/
theorem unique (h : Reads r R) {a b : α} {x y u v : Bytes} (hx : R a x) (hy : R b y)
    (heq : x ++ u = y ++ v) : a = b ∧ x = y ∧ u = v := by
  have h1 := (h "" 0 (x ++ u) a _).mpr ⟨x, u, hx, rfl, rfl⟩
  have h2 := (h "" 0 (x ++ u) b _).mpr ⟨y, v, hy, heq, rfl⟩
  rw [h1] at h2
  obtain ⟨hab, hrest⟩ := Prod.mk.inj h2
  have huv : u = v := congrArg Reader.rest hrest
  subst huv
  exact ⟨Except.ok.inj hab, List.append_cancel_right heq, rfl⟩

theorem pure (a : α) : Reads (Pure.pure a) fun b form => b = a ∧ form = [] := by
  intro what pos bytes b next
  show ((.ok a, Reader.before what pos bytes) : Except FormatError α × Reader) = _ ↔ _
  constructor
  · intro h
    obtain ⟨hab, rfl⟩ := Prod.mk.inj h
    exact ⟨[], bytes, ⟨(Except.ok.inj hab).symm, rfl⟩, rfl, rfl⟩
  · rintro ⟨-, rest, ⟨rfl, rfl⟩, rfl, rfl⟩
    rfl

theorem bind {f : α → Read β} {T : α → β → Bytes → Prop} (h : Reads r R)
    (hf : ∀ a, Reads (f a) (T a)) :
    Reads (r >>= f) fun b form => ∃ a x y, R a x ∧ T a b y ∧ form = x ++ y := by
  intro what pos bytes b next
  rw [outcome_bind_eq_ok]
  constructor
  · rintro ⟨a, u, hr, hb⟩
    obtain ⟨x, rest, hx, rfl, rfl⟩ := (h ..).mp hr
    obtain ⟨y, rest', hy, rfl, rfl⟩ := (hf a ..).mp hb
    refine ⟨x ++ y, rest', ⟨a, x, y, hx, hy, rfl⟩, (List.append_assoc ..).symm, ?_⟩
    rw [List.length_append, Nat.add_assoc]
  · rintro ⟨-, rest, ⟨a, x, y, hx, hy, rfl⟩, rfl, rfl⟩
    refine ⟨a, _, (h ..).mpr ⟨x, y ++ rest, hx, List.append_assoc .., rfl⟩, ?_⟩
    refine (hf a ..).mpr ⟨y, rest, hy, rfl, ?_⟩
    rw [List.length_append, Nat.add_assoc]

/-- A reader that never succeeds reads no form. -/
theorem never (h : ∀ s a t, outcome r s ≠ (.ok a, t)) : Reads r fun _ _ => False := by
  intro what pos bytes a next
  simp [h]

end Reads

/-! ### Single fields -/

@[simp] theorem outcome_pure (a : α) (s : Reader) : outcome (pure a) s = (.ok a, s) := rfl

@[simp] theorem outcome_throw (e : FormatError) (s : Reader) :
    outcome (throw e : Read α) s = (.error e, s) := rfl

@[simp] theorem outcome_get (s : Reader) : outcome get s = (.ok s, s) := rfl

theorem outcome_take {n : Nat} {bytes : Bytes} (h : n ≤ bytes.length) (what : String) (pos : Nat) :
    outcome (take n) (.before what pos bytes) =
      (.ok (bytes.take n), .before what (pos + n) (bytes.drop n)) := by
  have henough :
      ¬ (Reader.before what pos bytes).size < (Reader.before what pos bytes).pos + n := by
    simp only [Reader.before]
    omega
  have hsize : pos + bytes.length = pos + n + (bytes.drop n).length := by
    rw [List.length_drop]
    omega
  unfold take
  rw [outcome_bind, outcome_get]
  simp only [if_neg henough]
  show (Except.ok (bytes.take n), Reader.mk what (pos + bytes.length) (pos + n) (bytes.drop n)) = _
  rw [hsize]
  rfl

theorem outcome_take_short {n : Nat} {bytes : Bytes} (h : bytes.length < n) (what : String)
    (pos : Nat) :
    ∃ e, outcome (take n) (.before what pos bytes) = (.error e, .before what pos bytes) := by
  have hshort : (Reader.before what pos bytes).size < (Reader.before what pos bytes).pos + n := by
    simp only [Reader.before]
    omega
  unfold take
  rw [outcome_bind, outcome_get]
  simp only [if_pos hshort]
  exact ⟨_, rfl⟩

theorem reads_take (n : Nat) : Reads (take n) fun bytes form => form = bytes ∧ form.length = n := by
  intro what pos bytes found next
  constructor
  · intro h
    rcases Nat.lt_or_ge bytes.length n with hshort | henough
    · obtain ⟨e, he⟩ := outcome_take_short hshort what pos
      rw [he] at h
      cases congrArg Prod.fst h
    · rw [outcome_take henough] at h
      obtain ⟨hfound, rfl⟩ := Prod.mk.inj h
      obtain rfl := Except.ok.inj hfound
      have hn : (bytes.take n).length = n := List.length_take_of_le henough
      exact ⟨_, bytes.drop n, ⟨rfl, hn⟩, (List.take_append_drop n bytes).symm, by rw [hn]⟩
  · rintro ⟨form, rest, ⟨rfl, rfl⟩, rfl, rfl⟩
    rw [outcome_take (by simp), List.take_left, List.drop_left]

theorem reads_number (size : Nat) :
    Reads (readNumber size) fun n form => number size n = .ok form := by
  refine ((reads_take size).bind fun bytes => Reads.pure bytes.toNat).congr fun n form => ?_
  rw [number_eq_ok_iff]
  constructor
  · rintro ⟨bytes, x, y, ⟨rfl, rfl⟩, ⟨rfl, rfl⟩, rfl⟩
    exact ⟨_, rfl, Bytes.toNat_lt _, by rw [Bytes.ofNat_toNat, List.append_nil]⟩
  · rintro ⟨m, hm, hlt, rfl⟩
    obtain rfl : n = m := by exact_mod_cast hm
    refine ⟨_, _, [], ⟨rfl, Bytes.length_ofNat size n⟩, ⟨(Bytes.toNat_ofNat hlt).symm, rfl⟩, ?_⟩
    rw [List.append_nil]

/-- Bytes behind their length, as they are read. -/
theorem reads_counted (size : Nat) :
    Reads (do take (← readNumber size)) fun bytes form => counted size bytes = .ok form := by
  refine ((reads_number size).bind reads_take).congr fun bytes form => ?_
  rw [counted_eq_ok_iff]
  constructor
  · rintro ⟨n, x, y, hx, ⟨rfl, rfl⟩, rfl⟩
    obtain ⟨m, hm, hlt, rfl⟩ := number_eq_ok_iff.mp hx
    obtain rfl : _ = m := by exact_mod_cast hm
    exact ⟨hlt, rfl⟩
  · rintro ⟨hlt, rfl⟩
    exact ⟨_, _, bytes, number_eq_ok hlt, ⟨rfl, rfl⟩, rfl⟩

theorem reads_text : Reads text fun s form => (Field.text s).encode = .ok form := by
  unfold text
  rw [← bind_assoc]
  refine Reads.congr (Reads.bind (T := fun bytes s form => bytes = Bytes.ofText s ∧ form = [])
    (reads_counted 2) fun bytes => ?_) fun s form => ?_
  · rcases hd : Bytes.toText bytes with e | s
    · refine (Reads.never fun s a t => ?_).congr fun s form => ?_
      · simp [outcome_bind]
      · simp [← Bytes.toText_eq_ok_iff, hd]
    · refine (Reads.pure s).congr fun s' form => ?_
      rw [← Bytes.toText_eq_ok_iff, hd]
      simp [eq_comm]
  constructor
  · rintro ⟨bytes, x, y, hx, ⟨rfl, rfl⟩, rfl⟩
    rw [List.append_nil]
    exact hx
  · intro h
    exact ⟨_, form, [], h, ⟨rfl, rfl⟩, (List.append_nil form).symm⟩

theorem reads_blob : Reads blob fun bytes form => (Field.blob bytes).encode = .ok form :=
  reads_counted 4

/-! ### Sections -/

/-- A reader that is at the start of some bytes accepts them if they start with a form. -/
theorem Reads.outcome_start {r : Read α} {R : α → Bytes → Prop} (h : Reads r R) (what : String)
    (bytes : Bytes) (a : α) : (outcome r (.before what 0 bytes)).1 = .ok a ↔
      ∃ form rest, R a form ∧ bytes = form ++ rest := by
  constructor
  · intro ha
    obtain ⟨form, rest, hform, hbytes, -⟩ := (h what 0 bytes a _).mp (Prod.ext ha rfl)
    exact ⟨form, rest, hform, hbytes⟩
  · rintro ⟨form, rest, hform, rfl⟩
    rw [(h what 0 _ a _).mpr ⟨form, rest, hform, rfl, rfl⟩]

theorem outcome_expectEnd (what : String) (pos : Nat) (rest : Bytes) (next : Reader) :
    outcome expectEnd (.before what pos rest) = (.ok (), next) ↔
      rest = [] ∧ next = .before what pos rest := by
  have hsize : pos = pos + rest.length ↔ rest = [] := by
    rw [← List.length_eq_zero_iff]
    omega
  unfold expectEnd
  rw [outcome_bind, outcome_get, ← hsize]
  by_cases h : pos = pos + rest.length
  · have hcond : ¬ (Reader.before what pos rest).pos ≠ (Reader.before what pos rest).size :=
      not_not.mpr h
    simp only [if_neg hcond]
    exact ⟨fun heq => ⟨h, (congrArg Prod.snd heq).symm⟩, fun heq => Prod.ext rfl heq.2.symm⟩
  · have hcond : (Reader.before what pos rest).pos ≠ (Reader.before what pos rest).size := h
    simp only [if_pos hcond]
    constructor
    · intro heq
      cases congrArg Prod.fst heq
    · intro heq
      exact absurd heq.1 h

theorem outcome_whole_eq_ok {r : Read α} {s t : Reader} {a : α} :
    outcome (whole r) s = (.ok a, t) ↔
      ∃ u, outcome r s = (.ok a, u) ∧ outcome expectEnd u = (.ok (), t) := by
  unfold whole
  simp only [outcome_bind_eq_ok, outcome_pure]
  constructor
  · rintro ⟨a', u, hr, ⟨⟩, t', hend, hpure⟩
    cases hpure
    exact ⟨u, hr, hend⟩
  · rintro ⟨u, hr, hend⟩
    exact ⟨a, u, hr, (), t, hend, rfl⟩

/-- A reader to the end accepts bytes if they are a form. -/
theorem Reads.outcome_whole {r : Read α} {R : α → Bytes → Prop} (h : Reads r R) (what : String)
    (bytes : Bytes) (a : α) : (outcome (whole r) (.before what 0 bytes)).1 = .ok a ↔ R a bytes := by
  constructor
  · intro ha
    obtain ⟨u, hr, hend⟩ := outcome_whole_eq_ok.mp (Prod.ext ha rfl)
    obtain ⟨form, rest, hform, rfl, rfl⟩ := (h ..).mp hr
    obtain ⟨rfl, -⟩ := (outcome_expectEnd ..).mp hend
    rwa [List.append_nil]
  · intro hform
    have hr := (h what 0 bytes a _).mpr ⟨bytes, [], hform, (List.append_nil _).symm, rfl⟩
    have hend := (outcome_expectEnd what (0 + bytes.length) [] _).mpr ⟨rfl, rfl⟩
    exact congrArg Prod.fst (outcome_whole_eq_ok.mpr ⟨_, hr, hend⟩)

/-- **All of given bytes are read exactly if they are a form.** -/
theorem Reads.readAll_eq_ok {r : Read α} {R : α → Bytes → Prop} (h : Reads r R) {what : String}
    {bytes : Bytes} {a : α} : readAll what r bytes = .ok a ↔ R a bytes := by
  rw [← h.outcome_whole what bytes a, ← Reader.ofBytes_eq]
  rfl

theorem outcome_liftExcept (x : Except FormatError α) (s : Reader) :
    outcome (inside.liftExcept x) s = (x, s) := by
  cases x <;> rfl

theorem outcome_inside_eq_ok {r : Read α} {s t : Reader} {a : α} :
    outcome (inside r) s = (.ok a, t) ↔ ∃ body, outcome blob s = (.ok body, t) ∧
      (outcome r (.before t.what 0 body)).1 = .ok a := by
  unfold inside subsection
  simp only [outcome_bind_eq_ok, outcome_get, outcome_pure, outcome_liftExcept]
  constructor
  · rintro ⟨inner, u, ⟨body, v, hblob, w, v', hget, hpure⟩, hr⟩
    cases hget
    cases hpure
    obtain ⟨ha, rfl⟩ := Prod.mk.inj hr
    exact ⟨body, hblob, by rw [← Reader.ofBytes_eq]; exact ha⟩
  · rintro ⟨body, hblob, hr⟩
    refine ⟨_, t, ⟨body, t, hblob, t, t, rfl, rfl⟩, Prod.ext ?_ rfl⟩
    rw [Reader.ofBytes_eq]
    exact hr

/-- A section, by what its own reader accepts of the bytes in it. -/
theorem reads_inside {r : Read α} {R : α → Bytes → Prop}
    (h : ∀ what bytes a, (outcome r (.before what 0 bytes)).1 = .ok a ↔ R a bytes) :
    Reads (inside r) fun a form => ∃ body, R a body ∧ counted 4 body = .ok form := by
  intro what pos bytes a next
  rw [outcome_inside_eq_ok]
  constructor
  · rintro ⟨body, hblob, hr⟩
    obtain ⟨form, rest, hform, rfl, rfl⟩ := (reads_blob ..).mp hblob
    exact ⟨form, rest, ⟨body, (h ..).mp hr, hform⟩, rfl, rfl⟩
  · rintro ⟨form, rest, ⟨body, hbody, hform⟩, rfl, rfl⟩
    exact ⟨body, (reads_blob ..).mpr ⟨form, rest, hform, rfl, rfl⟩, (h ..).mpr hbody⟩

/-- A section that is read to its end. -/
theorem Reads.inside_whole {r : Read α} {R : α → Bytes → Prop} (h : Reads r R) :
    Reads (inside (whole r)) fun a form => ∃ body, R a body ∧ counted 4 body = .ok form :=
  reads_inside h.outcome_whole

/-- A section that is not read to its end. -/
theorem Reads.inside {r : Read α} {R : α → Bytes → Prop} (h : Reads r R) :
    Reads (inside r) fun a form => ∃ body,
      (∃ x extra, R a x ∧ body = x ++ extra) ∧ counted 4 body = .ok form :=
  reads_inside h.outcome_start

/-! ### Lists -/

/-- A number of things of one kind: their forms one after the other. -/
theorem Reads.times {r : Read α} {R : α → Bytes → Prop} (h : Reads r R) (n : Nat) :
    Reads (times n r) fun as form => as.length = n ∧
      ∃ forms, List.Forall₂ R as forms ∧ form = forms.flatten := by
  suffices key : ∀ done, Reads (repeatFrom r done n) fun as form =>
      ∃ new, as = done.reverse ++ new ∧ new.length = n ∧
        ∃ forms, List.Forall₂ R new forms ∧ form = forms.flatten by
    refine (key []).congr fun as form => ?_
    simp
  induction n with
  | zero =>
    intro done
    refine (Reads.pure done.reverse).congr fun as form => ?_
    simp
  | succ n ih =>
    intro done
    refine (h.bind fun a => ih (a :: done)).congr fun as form => ?_
    constructor
    · rintro ⟨a, x, y, hx, ⟨new, rfl, rfl, forms, hforms, rfl⟩, rfl⟩
      exact ⟨a :: new, by simp, rfl, x :: forms, .cons hx hforms, rfl⟩
    · rintro ⟨_ | ⟨a, new⟩, rfl, hlen, forms, hforms, rfl⟩
      · cases hlen
      · cases hforms with
        | cons hx hforms =>
          exact ⟨a, _, _, hx, ⟨new, by simp, Nat.succ.inj hlen, _, hforms, rfl⟩, rfl⟩

end Wire

end AluVM
