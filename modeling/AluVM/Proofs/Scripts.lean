import AluVM.Proofs.Spelling

/-! # Scripts

A script is a list of fields, with scripts for sections in it. It is written field by field into a
buffer, which comes to the same as encoding it (`Field.appends_write`, `writeAll_eq_ok`).

What is read back is given by the shape of the script alone, so that a reader knows nothing of the
values that were written. A section is read with a reader of its own, and the value that is returned
for it says where that reader stops. -/

namespace AluVM.Wire

/-! ### Writing into a buffer -/

section Buffer

variable {α β : Type} {w : Write α} {buf buf' : Bytes}

theorem run_bind_of_ok {a : α} (h : w.run buf = (.ok a, buf')) (g : α → Write β) :
    (w >>= g).run buf = (g a).run buf' := by
  show (StateT.bind (ExceptT.run w) (ExceptT.bindCont g) buf : Except Failure β × Bytes) = _
  unfold StateT.bind
  rw [show w.run buf = pure (.ok a, buf') from h]
  rfl

theorem run_bind_of_error {e : Failure} (h : w.run buf = (.error e, buf')) (g : α → Write β) :
    (w >>= g).run buf = (.error e, buf') := by
  show (StateT.bind (ExceptT.run w) (ExceptT.bindCont g) buf : Except Failure β × Bytes) = _
  unfold StateT.bind
  rw [show w.run buf = pure (.error e, buf') from h]
  rfl

end Buffer

/-- **A writer puts the bytes of an encoding behind those of its buffer**, or both fail in the same way
and the buffer stays as it was. -/
structure Appends (w : Write Unit) (x : Except Failure Bytes) : Prop where
  ok : ∀ {bytes}, x = .ok bytes → ∀ buf, w.run buf = (.ok (), buf ++ bytes)
  error : ∀ {e}, x = .error e → ∀ buf, w.run buf = (.error e, buf)

theorem appends_put (bytes : Bytes) : Appends (put bytes) (.ok bytes) where
  ok h buf := by
    cases h
    rfl
  error h := by cases h

theorem appends_throw (e : Failure) : Appends (throw e) (.error e) where
  ok h := by cases h
  error h buf := by
    cases h
    rfl

theorem appends_putNumber (size : Nat) (v : Int) : Appends (putNumber size v) (number size v) := by
  unfold putNumber
  rcases number size v with e | bytes
  · exact appends_throw e
  · exact appends_put bytes

theorem appends_putCounted (size : Nat) (bytes : Bytes) :
    Appends (putCounted size bytes) (counted size bytes) := by
  have hnumber := appends_putNumber size bytes.length
  unfold putCounted counted
  rcases hlength : number size bytes.length with e | length
  · constructor
    · intro _ h
      cases h
    · intro _ h buf
      cases h
      exact run_bind_of_error (hnumber.error hlength buf) _
  · constructor
    · intro _ h buf
      cases h
      rw [run_bind_of_ok (hnumber.ok hlength buf), (appends_put bytes).ok rfl, List.append_assoc]
    · intro _ h
      cases h

mutual

/-- **Writing a field comes to the same as encoding it.** -/
theorem Field.appends_write : ∀ f : Field, Appends f.write f.encode
  | .u8 v => by
    rw [Field.write, Field.encode]
    exact appends_putNumber 1 v
  | .u16 v => by
    rw [Field.write, Field.encode]
    exact appends_putNumber 2 v
  | .u32 v => by
    rw [Field.write, Field.encode]
    exact appends_putNumber 4 v
  | .text s => by
    rw [Field.write, Field.encode]
    exact appends_putCounted 2 _
  | .blob bytes => by
    rw [Field.write, Field.encode]
    exact appends_putCounted 4 bytes
  | .nested fields => by
    rw [Field.write, Field.encode, ← encodeAll]
    rcases hfields : encodeAll fields with e | body
    · obtain ⟨part, hpart⟩ := writeAll_of_error fields e hfields []
      rw [hpart]
      exact appends_throw e
    · rw [writeAll_of_ok fields body hfields []]
      exact appends_putCounted 4 _

theorem writeAll_of_ok : ∀ fields : List Field, ∀ bytes, encodeAll fields = .ok bytes →
    ∀ buf, (writeAll fields).run buf = (.ok (), buf ++ bytes)
  | [] => by
    intro bytes h buf
    rw [encodeAll_nil.mp h, List.append_nil, writeAll]
    rfl
  | f :: fs => by
    intro bytes h buf
    obtain ⟨x, y, hx, hy, rfl⟩ := encodeAll_cons.mp h
    rw [writeAll, run_bind_of_ok (f.appends_write.ok hx buf), writeAll_of_ok fs y hy,
      List.append_assoc]

/-- What is written before a failure stays written. -/
theorem writeAll_of_error : ∀ fields : List Field, ∀ e, encodeAll fields = .error e →
    ∀ buf, ∃ part, (writeAll fields).run buf = (.error e, buf ++ part)
  | [] => by
    intro e h
    cases h
  | f :: fs => by
    intro e h buf
    rw [encodeAll, encodeFrom] at h
    rcases hf : f.encode with e' | x
    · rw [hf] at h
      cases h
      refine ⟨[], ?_⟩
      rw [writeAll, run_bind_of_error (f.appends_write.error hf buf), List.append_nil]
    · rw [hf] at h
      change encodeFrom _ fs = _ at h
      rw [encodeFrom_eq] at h
      rcases hfs : encodeAll fs with e' | y
      · rw [hfs] at h
        cases h
        obtain ⟨part, hpart⟩ := writeAll_of_error fs e hfs (buf ++ x)
        refine ⟨x ++ part, ?_⟩
        rw [writeAll, run_bind_of_ok (f.appends_write.ok hf buf), hpart, List.append_assoc]
      · rw [hfs] at h
        cases h

end

theorem writeAll_eq_ok {fields : List Field} {buf buf' : Bytes} :
    (writeAll fields).run buf = (.ok (), buf') ↔
      ∃ bytes, encodeAll fields = .ok bytes ∧ buf' = buf ++ bytes := by
  constructor
  · intro h
    rcases hfields : encodeAll fields with e | bytes
    · obtain ⟨part, hpart⟩ := writeAll_of_error fields e hfields buf
      rw [hpart] at h
      cases congrArg Prod.fst h
    · rw [writeAll_of_ok fields bytes hfields] at h
      exact ⟨bytes, rfl, (congrArg Prod.snd h).symm⟩
  · rintro ⟨bytes, hbytes, rfl⟩
    exact writeAll_of_ok fields bytes hbytes buf

/-- **A write that fails leaves the buffer as it was.** -/
theorem Field.buffer_of_error {f : Field} {buf buf' : Bytes} {e : Failure}
    (h : f.write.run buf = (.error e, buf')) : buf' = buf := by
  rcases hf : f.encode with e' | bytes
  · rw [f.appends_write.error hf] at h
    exact (congrArg Prod.snd h).symm
  · rw [f.appends_write.ok hf] at h
    cases congrArg Prod.fst h

/-! ### Reading by shape -/

/-- A field without its value. -/
inductive Shape where
  | u8
  | u16
  | u32
  | text
  | blob
  | nested (shapes : List Shape)

/-- What is returned for a field. -/
inductive Value where
  | number (n : Nat)
  | text (s : String)
  | blob (bytes : Bytes)
  /-- What the reader of a section returns, and where it stops. -/
  | nested (values : List Value) (stop : Reader)

mutual

/-- The shape of a field. -/
def Field.shape : Field → Shape
  | .u8 _ => .u8
  | .u16 _ => .u16
  | .u32 _ => .u32
  | .text _ => .text
  | .blob _ => .blob
  | .nested fields => .nested (shapes fields)

/-- The shapes of fields. -/
def shapes : List Field → List Shape
  | [] => []
  | f :: fs => f.shape :: shapes fs

end

mutual

/-- Reads a field of a shape. A section is read with a reader of its own. -/
def Shape.read : Shape → Read Value
  | .u8 => do return .number (← Wire.u8)
  | .u16 => do return .number (← Wire.u16)
  | .u32 => do return .number (← Wire.u32)
  | .text => do return .text (← Wire.text)
  | .blob => do return .blob (← Wire.blob)
  | .nested shapes => do
    let inner ← subsection
    match (readShapes shapes).run inner with
    | (.ok values, stop) => return .nested values stop
    | (.error e, _) => throw e

/-- Reads fields of given shapes one after the other. -/
def readShapes : List Shape → Read (List Value)
  | [] => return []
  | s :: ss => do
    let value ← s.read
    let values ← readShapes ss
    return value :: values

end

/-- A reader that has read all of its bytes. -/
def Reader.atEnd (what : String) (bytes : Bytes) : Reader := ⟨what, bytes.length, bytes.length, []⟩

/-- **What is returned for a field is what was written**, and the reader of a section is at the end
of what the fields of the section were written as. -/
inductive Returns (what : String) : Field → Value → Prop where
  | u8 (n : Nat) : Returns what (.u8 n) (.number n)
  | u16 (n : Nat) : Returns what (.u16 n) (.number n)
  | u32 (n : Nat) : Returns what (.u32 n) (.number n)
  | text (s : String) : Returns what (.text s) (.text s)
  | blob (bytes : Bytes) : Returns what (.blob bytes) (.blob bytes)
  | nested {fields : List Field} {values : List Value} {body : Bytes}
      (hvalues : List.Forall₂ (Returns what) fields values)
      (hbody : (writeAll fields).run [] = (.ok (), body)) :
      Returns what (.nested fields) (.nested values (.atEnd what body))

theorem outcome_map_eq_ok {α β : Type} {r : Read α} {g : α → β} {s t : Reader} {a : α}
    (h : outcome r s = (.ok a, t)) : outcome (do return g (← r)) s = (.ok (g a), t) :=
  outcome_bind_eq_ok.mpr ⟨a, t, h, rfl⟩

theorem run_of_outcome {α : Type} {r : Read α} {what : String} {bytes : Bytes} {a : α}
    (h : outcome r (.before what 0 (bytes ++ [])) = (.ok a, .before what (0 + bytes.length) [])) :
    r.run (.ofBytes what bytes) = (.ok a, .atEnd what bytes) := by
  rw [List.append_nil, Nat.zero_add, ← Reader.ofBytes_eq] at h
  exact h

theorem outcome_subsection {s t : Reader} {body : Bytes} (h : outcome blob s = (.ok body, t)) :
    outcome subsection s = (.ok (.ofBytes t.what body), t) :=
  outcome_bind_eq_ok.mpr ⟨body, t, h, rfl⟩

theorem outcome_number {size : Nat} {v : Int} {form : Bytes} (h : number size v = .ok form)
    (what : String) (pos : Nat) (rest : Bytes) : ∃ n : Nat, v = n ∧
      outcome (readNumber size) (.before what pos (form ++ rest)) =
        (.ok n, .before what (pos + form.length) rest) := by
  obtain ⟨n, rfl, -, -⟩ := number_eq_ok_iff.mp h
  exact ⟨n, rfl, (reads_number size ..).mpr ⟨form, rest, h, rfl, rfl⟩⟩

mutual

/-- **A field is read as it was written**, whatever is behind it. -/
theorem Field.outcome_read : ∀ f : Field, ∀ form, f.encode = .ok form →
    ∀ what pos rest, ∃ value, outcome f.shape.read (.before what pos (form ++ rest)) =
      (.ok value, .before what (pos + form.length) rest) ∧ Returns what f value
  | .u8 v => by
    intro form h what pos rest
    obtain ⟨n, rfl, hread⟩ := outcome_number h what pos rest
    exact ⟨.number n, outcome_map_eq_ok hread, .u8 n⟩
  | .u16 v => by
    intro form h what pos rest
    obtain ⟨n, rfl, hread⟩ := outcome_number h what pos rest
    exact ⟨.number n, outcome_map_eq_ok hread, .u16 n⟩
  | .u32 v => by
    intro form h what pos rest
    obtain ⟨n, rfl, hread⟩ := outcome_number h what pos rest
    exact ⟨.number n, outcome_map_eq_ok hread, .u32 n⟩
  | .text s => by
    intro form h what pos rest
    have hread := (reads_text what pos _ s _).mpr ⟨form, rest, h, rfl, rfl⟩
    exact ⟨.text s, outcome_map_eq_ok hread, .text s⟩
  | .blob bytes => by
    intro form h what pos rest
    have hread := (reads_blob what pos _ bytes _).mpr ⟨form, rest, h, rfl, rfl⟩
    exact ⟨.blob bytes, outcome_map_eq_ok hread, .blob bytes⟩
  | .nested fields => by
    intro form h what pos rest
    obtain ⟨body, hbody, hform⟩ := encode_nested.mp h
    obtain ⟨values, hvalues, hreturns⟩ := outcome_readShapes fields body hbody what 0 []
    have hsection := outcome_subsection ((reads_blob what pos _ body _).mpr
      ⟨form, rest, hform, rfl, rfl⟩)
    have hinner := run_of_outcome hvalues
    refine ⟨.nested values (.atEnd what body), ?_,
      .nested hreturns (writeAll_of_ok fields body hbody [])⟩
    rw [Field.shape, Shape.read, outcome_bind_eq_ok]
    refine ⟨_, _, hsection, ?_⟩
    simp only [Reader.before, hinner, outcome_pure]

theorem outcome_readShapes : ∀ fields : List Field, ∀ form, encodeAll fields = .ok form →
    ∀ what pos rest, ∃ values, outcome (readShapes (shapes fields))
      (.before what pos (form ++ rest)) = (.ok values, .before what (pos + form.length) rest) ∧
        List.Forall₂ (Returns what) fields values
  | [] => by
    intro form h what pos rest
    obtain rfl := encodeAll_nil.mp h
    exact ⟨[], rfl, .nil⟩
  | f :: fs => by
    intro form h what pos rest
    obtain ⟨x, y, hx, hy, rfl⟩ := encodeAll_cons.mp h
    obtain ⟨value, hvalue, hreturn⟩ := f.outcome_read x hx what pos (y ++ rest)
    obtain ⟨values, hvalues, hreturns⟩ := outcome_readShapes fs y hy what (pos + x.length) rest
    refine ⟨value :: values, ?_, .cons hreturn hreturns⟩
    rw [shapes, readShapes, List.append_assoc, outcome_bind_eq_ok]
    refine ⟨value, _, hvalue, outcome_bind_eq_ok.mpr ⟨values, _, hvalues, ?_⟩⟩
    rw [List.length_append, Nat.add_assoc]
    rfl

end

/-! ### Readers stay inside their bytes -/

/-- **A reader of bytes stands inside them**, in front of those that it has not read. -/
structure Reader.Over (raw : Bytes) (r : Reader) : Prop where
  size : r.size = raw.length
  pos_le : r.pos ≤ raw.length
  rest : r.rest = raw.drop r.pos

theorem Reader.over_ofBytes (what : String) (raw : Bytes) : (Reader.ofBytes what raw).Over raw :=
  ⟨rfl, Nat.zero_le _, rfl⟩

/-- **Reading keeps a reader inside its bytes**, whether it succeeds or fails. -/
def Stays {α : Type} (r : Read α) : Prop :=
  ∀ raw s, s.Over raw → (outcome r s).2.Over raw

section Stays

variable {α β : Type}

theorem stays_pure (a : α) : Stays (pure a) := fun _ _ h => h

theorem stays_throw (e : FormatError) : Stays (throw e : Read α) := fun _ _ h => h

theorem stays_get : Stays get := fun _ _ h => h

theorem Stays.bind {r : Read α} {f : α → Read β} (hr : Stays r) (hf : ∀ a, Stays (f a)) :
    Stays (r >>= f) := by
  intro raw s hs
  have hnext := hr raw s hs
  rw [outcome_bind]
  rcases houtcome : outcome r s with ⟨e | a, t⟩ <;> rw [houtcome] at hnext
  · exact hnext
  · exact hf a raw t hnext

theorem stays_take (n : Nat) : Stays (take n) := by
  intro raw s hs
  unfold take
  rw [outcome_bind, outcome_get]
  by_cases hshort : s.size < s.pos + n
  · simp only [if_pos hshort]
    exact hs
  · simp only [if_neg hshort]
    have hsize := hs.size
    refine ⟨hsize, ?_, ?_⟩
    · show s.pos + n ≤ raw.length
      omega
    · show s.rest.drop n = raw.drop (s.pos + n)
      rw [hs.rest, List.drop_drop]

theorem stays_readNumber (n : Nat) : Stays (readNumber n) :=
  (stays_take n).bind fun bytes => stays_pure bytes.toNat

theorem stays_blob : Stays blob := (stays_readNumber 4).bind stays_take

theorem stays_text : Stays text := by
  refine (stays_readNumber 2).bind fun n => (stays_take n).bind fun bytes => ?_
  rcases Bytes.toText bytes with e | s
  · exact stays_get.bind fun r => stays_get.bind fun r' => stays_throw _
  · exact stays_pure s

theorem stays_subsection : Stays subsection :=
  stays_blob.bind fun _ => stays_get.bind fun _ => stays_pure _

end Stays

mutual

theorem Shape.stays_read : ∀ s : Shape, Stays s.read
  | .u8 => (stays_readNumber 1).bind fun _ => stays_pure _
  | .u16 => (stays_readNumber 2).bind fun _ => stays_pure _
  | .u32 => (stays_readNumber 4).bind fun _ => stays_pure _
  | .text => stays_text.bind fun _ => stays_pure _
  | .blob => stays_blob.bind fun _ => stays_pure _
  | .nested shapes => by
    rw [Shape.read]
    refine stays_subsection.bind fun inner => ?_
    rcases (readShapes shapes).run inner with ⟨e | values, stop⟩
    · exact stays_throw e
    · exact stays_pure _

theorem stays_readShapes : ∀ shapes : List Shape, Stays (readShapes shapes)
  | [] => stays_pure []
  | s :: ss => s.stays_read.bind fun _ => (stays_readShapes ss).bind fun _ => stays_pure _

end

/-- **What is written is read back.** If a script can be written, then steps of the same shapes read
its bytes: they return what was written, and the reader is at its end then, as is the reader of every
section in its own. A write that fails leaves the buffer as it was, and reading never takes a reader
out of its bytes, also if it fails. -/
theorem script_roundtrip (script : List Field) (what : String) :
    (∀ bytes, (writeAll script).run [] = (.ok (), bytes) → ∃ values,
      (readShapes (shapes script)).run (.ofBytes what bytes) = (.ok values, .atEnd what bytes) ∧
        List.Forall₂ (Returns what) script values) ∧
      (∀ (f : Field) (buf : Bytes) (e : Failure) (buf' : Bytes),
        f.write.run buf = (.error e, buf') → buf' = buf) ∧
      ∀ (steps : List Shape) (raw : Bytes) (r : Reader), r.Over raw →
        ((readShapes steps).run r).2.Over raw := by
  refine ⟨fun bytes h => ?_, fun _ _ _ _ => Field.buffer_of_error,
    fun steps => stays_readShapes steps⟩
  obtain ⟨_, hbytes, rfl⟩ := writeAll_eq_ok.mp h
  obtain ⟨values, hvalues, hreturns⟩ := outcome_readShapes script bytes hbytes what 0 []
  exact ⟨values, run_of_outcome hvalues, hreturns⟩

/-- Fields of all shapes, with an empty text and a section in a section. -/
def sampleScript : List Field :=
  [.u8 255, .text "añ€", .nested [.u16 513, .nested [.blob [1, 2], .nested []], .text ""], .u32 7]

theorem script_roundtrip_sample :
    (∃ values, (readShapes [.u8, .text, .nested [.u16, .nested [.blob, .nested []], .text], .u32]).run
        (.ofBytes "x" [255, 6, 0, 97, 195, 177, 226, 130, 172, 18, 0, 0, 0, 1, 2, 10, 0, 0, 0, 2, 0, 0,
          0, 1, 2, 0, 0, 0, 0, 0, 0, 7, 0, 0, 0]) = (.ok values, ⟨"x", 35, 35, []⟩) ∧
      List.Forall₂ (Returns "x") sampleScript values) ∧
    ((Field.nested [.u8 1, .u16 65536]).write.run [9]).2 = [9] ∧
    ((readShapes [.u8, .text, .u8]).run ⟨"x", 4, 0, [1, 5, 0, 7]⟩).2.pos ≤ 4 := by
  obtain ⟨hread, hfailed, hinside⟩ := script_roundtrip sampleScript "x"
  refine ⟨hread _ (by rfl), ?_, ?_⟩
  · exact hfailed (.nested [.u8 1, .u16 65536]) [9] .fieldRange _ (by rfl)
  · exact (hinside _ [1, 5, 0, 7] _ (Reader.over_ofBytes "x" [1, 5, 0, 7])).pos_le

end AluVM.Wire
