import AluVM.Files.Tree
import AluVM.Proofs.Steps
import Mathlib.Data.List.Find

/-! # Files that are written

A write changes the one file that its path leads to, and every path that led to a file leads to it
still (`target_of_write`). After several writes a file holds what was written to it last
(`target_of_writeAll`): different paths may lead to one file, so the last write to a file is looked
for by the places of the paths and not by the paths.

The files that lie in one directory under plain names are kept apart by their names
(`place_of_name`). -/

namespace AluVM

open Steps

namespace FileTree

variable {t t' : FileTree} {p q : Place} {content old : Bytes} {path : String}

/-! ### One place -/

theorem at?_put (hp : p ≠ []) (e : Entry) (q : Place) :
    (t.put p e).at? q = if q = p then some e else t.at? q := by
  have hkeep : ∀ entries : List (Place × Entry), q ≠ p →
      (entries.filter (·.1 ≠ p)).lookup q = entries.lookup q := by
    intro entries hq
    induction entries with
    | nil => rfl
    | cons x entries ih =>
      by_cases hx : x.1 = p
      · have hne : (q == x.1) = false := by simpa [hx] using hq
        rw [List.filter_cons_of_neg (by simpa using hx), ih, List.lookup_cons, hne]
      · rw [List.filter_cons_of_pos (by simpa using hx), List.lookup_cons, List.lookup_cons, ih]
  unfold at? put
  by_cases hq : q = p
  · have hroot : p.isEmpty = false := by simpa using hp
    simp [hq, hroot]
  · have hne : (q == p) = false := by simpa using hq
    rw [if_neg hq]
    show (if q.isEmpty then _ else List.lookup q ((p, e) :: _)) = _
    rw [List.lookup_cons, hne, hkeep _ hq]

/-- The tree has at the place of a target what the target says. -/
def Target.Stands (t : FileTree) : Target → Prop
  | .directory _ => True
  | .file p content => p ≠ [] ∧ t.at? p = some (.file content)
  | .absent p => p ≠ [] ∧ t.at? p = none

theorem stands_of_follow {dir : Place} {steps : List String} {x : Target}
    (h : t.follow dir steps = .ok x) : x.Stands t := by
  fun_induction follow t dir steps with
  | case1 dir => cases h; trivial
  | case2 dir step steps hskip ih => exact ih h
  | case3 dir steps hskip ih => exact ih h
  | case4 dir step steps => cases h
  | case5 dir step steps _ _ _ hat ih => exact ih h
  | case6 dir step steps _ _ _ content hat hlast => cases h; exact ⟨by simp, hat⟩
  | case7 => cases h
  | case8 dir step steps _ _ _ hat hlast => cases h; exact ⟨by simp, hat⟩
  | case9 => cases h

/-- What a target becomes when a file is put at a place. -/
def Target.after (p : Place) (content : Bytes) : Target → Target
  | .directory dir => .directory dir
  | .file q old => .file q (if q = p then content else old)
  | .absent q => if q = p then .file p content else .absent q

theorem getLast?_tail_ne {a : String} {as : List String} (h : (a :: as).getLast? ≠ some "") :
    as.getLast? ≠ some "" := by
  intro has
  rw [List.getLast?_cons, has] at h
  exact h rfl

/-- **Paths after a file is put at a place** where no directory was. A path with a slash at its end
does not lead to a file, so it may not be the one that led to the place. -/
theorem follow_put (hp : p ≠ []) (hdir : t.at? p ≠ some .directory) {dir : Place}
    {steps : List String} {x : Target} (h : t.follow dir steps = .ok x)
    (hend : x = .absent p → steps.getLast? ≠ some "") :
    (t.put p (.file content)).follow dir steps = .ok (x.after p content) := by
  fun_induction follow t dir steps with
  | case1 dir => cases h; rfl
  | case2 dir step steps hskip ih =>
    rw [follow, if_pos hskip]
    exact ih h fun hx => getLast?_tail_ne (hend hx)
  | case3 dir steps hskip ih =>
    rw [follow, if_neg hskip, if_pos rfl]
    exact ih h fun hx => getLast?_tail_ne (hend hx)
  | case4 => cases h
  | case5 dir step steps hskip hup hlong hat ih =>
    have hne : dir ++ [step] ≠ p := fun heq => hdir (heq ▸ hat)
    rw [follow, if_neg hskip, if_neg hup, if_neg hlong, at?_put hp, if_neg hne, hat]
    exact ih h fun hx => getLast?_tail_ne (hend hx)
  | case6 dir step steps hskip hup hlong old hat hlast =>
    cases h
    rw [follow, if_neg hskip, if_neg hup, if_neg hlong, at?_put hp]
    by_cases heq : dir ++ [step] = p
    · simp [Target.after, heq, hlast]
    · simp [Target.after, heq, hat, hlast]
  | case7 => cases h
  | case8 dir step steps hskip hup hlong hat hblank =>
    cases h
    rw [follow, if_neg hskip, if_neg hup, if_neg hlong, at?_put hp]
    by_cases heq : dir ++ [step] = p
    · have hnil : steps = [] := by
        by_contra hne
        have hblank' := List.all_eq_true.mp hblank _ (List.getLast_mem hne)
        have hempty : steps.getLast hne = "" := by simpa using hblank'
        refine getLast?_tail_ne (hend (by rw [heq])) ?_
        rw [List.getLast?_eq_some_getLast hne, hempty]
      simp [Target.after, heq, hnil]
    · simp [Target.after, heq, hat, hblank]
  | case9 => cases h

/-! ### One write -/

theorem pieces_ne_nil (piece cs : List Char) : Path.pieces piece cs ≠ [] := by
  fun_induction Path.pieces piece cs with
  | case1 => simp
  | case2 => simp
  | case3 piece c cs hc ih => exact ih

/-- The last piece of a text is empty only at the end of a slash. -/
theorem getLast?_pieces {piece cs : List Char} (hend : cs.getLast? ≠ some '/')
    (hne : piece ≠ [] ∨ cs ≠ []) : (Path.pieces piece cs).getLast? ≠ some "" := by
  fun_induction Path.pieces piece cs with
  | case1 piece =>
    have hpiece : piece ≠ [] := by simpa using hne
    simpa using hpiece
  | case2 piece cs ih =>
    have hcs : cs ≠ [] := by
      rintro rfl
      exact hend rfl
    rw [List.getLast?_cons_of_ne_nil hcs] at hend
    rw [List.getLast?_cons_of_ne_nil (pieces_ne_nil [] cs)]
    exact ih hend (.inr hcs)
  | case3 piece c cs hc ih =>
    refine ih ?_ (.inl (by simp))
    intro hcs
    rw [List.getLast?_cons, hcs] at hend
    exact hend rfl

theorem target_put (hp : p ≠ []) (hdir : t.at? p ≠ some .directory) {x : Target}
    (h : t.target path = .ok x) (hend : x = .absent p → path.toList.getLast? ≠ some '/') :
    (t.put p (.file content)).target path = .ok (x.after p content) := by
  unfold target targetOf at h ⊢
  by_cases hempty : path.isEmpty = true
  · rw [if_pos hempty] at h
    cases h
  · rw [if_neg hempty] at h ⊢
    split_ifs at h ⊢ with hlong
    all_goals
      refine follow_put hp hdir h fun hx => getLast?_pieces (hend hx) (.inr ?_)
      simpa using hempty

/-- What a write does: it puts the file at the place that its path leads to. -/
theorem write_eq_ok (h : t.write path content = .ok t') :
    path.toList.getLast? ≠ some '/' ∧ ∃ p, t' = t.put p (.file content) ∧
      ((∃ old, t.target path = .ok (.file p old)) ∨ t.target path = .ok (.absent p)) := by
  unfold write at h
  split_ifs at h with hslash
  · cases h
  · obtain ⟨x, hx, h⟩ := bind_eq_ok.mp h
    rcases x with dir | ⟨place, old⟩ | place
    · cases h
    · exact ⟨hslash, place, (Except.ok.inj h).symm, .inl ⟨old, hx⟩⟩
    · exact ⟨hslash, place, (Except.ok.inj h).symm, .inr hx⟩

theorem follow_of_target {x : Target} (h : t.target path = .ok x) :
    t.follow (if path.toList.head? = some '/' then [] else t.home)
      (Path.pieces [] path.toList) = .ok x := by
  unfold target targetOf at h
  by_cases hempty : path.isEmpty = true
  · rw [if_pos hempty] at h
    cases h
  · rw [if_neg hempty] at h
    by_cases hlong : maxPath ≤ path.utf8ByteSize
    · rw [if_pos hlong] at h
      cases h
    · rwa [if_neg hlong] at h

theorem stands_of_target {x : Target} (h : t.target path = .ok x) : x.Stands t :=
  stands_of_follow (follow_of_target h)

/-- **A write**: its path leads to the file with the new content, and every path that led to a file
leads to that file still, which has another content only if it is the one that was written. -/
theorem target_of_write (h : t.write path content = .ok t') :
    ∃ p, t'.target path = .ok (.file p content) ∧ ∀ other q old,
      t.target other = .ok (.file q old) →
        t'.target other = .ok (.file q (if q = p then content else old)) := by
  obtain ⟨hslash, p, rfl, hfile | habsent⟩ := write_eq_ok h
  · obtain ⟨old, htarget⟩ := hfile
    obtain ⟨hp, hat⟩ := stands_of_target htarget
    have hdir : t.at? p ≠ some .directory := by simp [hat]
    refine ⟨p, ?_, fun other q old hother => target_put hp hdir hother (by simp)⟩
    have hput : (t.put p (.file content)).target path = _ := target_put hp hdir htarget (by simp)
    simpa [Target.after] using hput
  · obtain ⟨hp, hat⟩ := stands_of_target habsent
    have hdir : t.at? p ≠ some .directory := by simp [hat]
    refine ⟨p, ?_, fun other q old hother => target_put hp hdir hother (by simp)⟩
    have hput : (t.put p (.file content)).target path = _ :=
      target_put hp hdir habsent fun _ => hslash
    simpa [Target.after] using hput

/-! ### Writes one after the other -/

/-- The place of the file that a path leads to. -/
def place? (t : FileTree) (path : String) : Option Place :=
  match t.target path with
  | .ok (.file p _) => some p
  | _ => none

/-- Writes contents to paths in order. -/
def writeAll (t : FileTree) (ws : List (String × Bytes)) : Except FileFault FileTree :=
  ws.foldlM (fun t w => t.write w.1 w.2) t

/-- The last of some values with paths that lead to the same file as a path. -/
def lastAt {α : Type} (t : FileTree) (ws : List (String × α)) (path : String) :
    Option (String × α) :=
  ws.reverse.find? fun w => t.place? w.1 = t.place? path

theorem place?_of_target (h : t.target path = .ok (.file p content)) : t.place? path = some p := by
  rw [place?, h]

theorem target_of_place? (h : t.place? path = some p) :
    ∃ content, t.target path = .ok (.file p content) := by
  unfold place? at h
  split at h
  · rename_i p' content htarget
    cases h
    exact ⟨content, htarget⟩
  · cases h

theorem lastAt_append {α : Type} (xs ys : List (String × α)) (path : String) :
    t.lastAt (xs ++ ys) path = (t.lastAt ys path).or (t.lastAt xs path) := by
  rw [lastAt, List.reverse_append, List.find?_append]
  rfl

theorem lastAt_singleton {α : Type} (w : String × α) (path : String) :
    t.lastAt [w] path = if t.place? w.1 = t.place? path then some w else none := by
  by_cases hw : t.place? w.1 = t.place? path
  · simp [lastAt, hw]
  · simp [lastAt, hw]

theorem lastAt_map {α β : Type} (f : α → β) (ws : List (String × α)) (path : String) :
    t.lastAt (ws.map fun w => (w.1, f w.2)) path =
      (t.lastAt ws path).map fun w => (w.1, f w.2) := by
  rw [lastAt, ← List.map_reverse, List.find?_map]
  rfl

theorem lastAt_eq_none {α : Type} {ws : List (String × α)}
    (h : ∀ w ∈ ws, t.place? w.1 ≠ t.place? path) : t.lastAt ws path = none := by
  rw [lastAt, List.find?_eq_none]
  intro w hw
  simpa using h w (List.mem_reverse.mp hw)

/-- If one of several writes each at most goes to the file of a path, the last of these counts. -/
theorem lastAt_flatMap {α β : Type} {xs : List β} {W : β → List (String × α)} {good : β → Bool}
    {g : β → String × α}
    (h : ∀ x ∈ xs, t.lastAt (W x) path = if good x then some (g x) else none) :
    t.lastAt (xs.flatMap W) path = (xs.reverse.find? good).map g := by
  induction xs with
  | nil => rfl
  | cons x xs ih =>
    have hx := h x List.mem_cons_self
    rw [List.flatMap_cons, lastAt_append, ih fun y hy => h y (List.mem_cons_of_mem x hy), hx,
      List.reverse_cons, List.find?_append, Option.map_or]
    by_cases hgood : good x = true
    · simp [hgood]
    · simp [hgood]

theorem lastAt_congr {α : Type} {ws : List (String × α)}
    (h : ∀ w ∈ ws, t'.place? w.1 = t.place? w.1) (hpath : t'.place? path = t.place? path) :
    t'.lastAt ws path = t.lastAt ws path := by
  unfold lastAt
  rw [hpath]
  refine List.find?_congr fun w hw => ?_
  rw [h w (List.mem_reverse.mp hw)]

/-- **The last write wins**: after several writes each of their paths leads to a file, and the
file holds what was written to it last. -/
theorem target_of_writeAll {ws : List (String × Bytes)} (h : t.writeAll ws = .ok t') :
    ∀ w ∈ ws, ∃ p last, t'.target w.1 = .ok (.file p last.2) ∧ t'.lastAt ws w.1 = some last := by
  refine foldlM_induction (fun done s => ∀ w ∈ done, ∃ p last,
    s.target w.1 = .ok (.file p last.2) ∧ s.lastAt done w.1 = some last) (by simp) ?_ h
  intro done new rest s s' _ hdone hstep
  obtain ⟨p, hnew, hkeep⟩ := target_of_write hstep
  have hplaces : ∀ w ∈ done, s'.place? w.1 = s.place? w.1 := by
    intro w hw
    obtain ⟨q, last, htarget, -⟩ := hdone w hw
    rw [place?_of_target htarget, place?_of_target (hkeep _ _ _ htarget)]
  intro w hw
  rcases List.mem_append.mp hw with hw | hw
  · obtain ⟨q, last, htarget, hlast⟩ := hdone w hw
    have htarget' := hkeep _ _ _ htarget
    by_cases hq : q = p
    · -- the file of `w` is the one that is written now
      have hsame : s'.place? new.1 = s'.place? w.1 := by
        rw [place?_of_target hnew, place?_of_target htarget', hq]
      refine ⟨q, new, by simpa [hq] using htarget', ?_⟩
      rw [lastAt_append, lastAt_singleton, if_pos hsame, Option.some_or]
    · have hother : s'.place? new.1 ≠ s'.place? w.1 := by
        rw [place?_of_target hnew, place?_of_target htarget']
        exact fun heq => hq (Option.some.inj heq).symm
      refine ⟨q, last, by simpa [hq] using htarget', ?_⟩
      rw [lastAt_append, lastAt_singleton, if_neg hother, Option.none_or,
        lastAt_congr hplaces (hplaces w hw), hlast]
  · rw [List.mem_singleton.mp hw]
    refine ⟨p, new, hnew, ?_⟩
    rw [lastAt_append, lastAt_singleton, if_pos rfl, Option.some_or]

theorem read_of_target (h : t.target path = .ok (.file p content)) : t.read path = .ok content := by
  rw [read, h]
  rfl

end FileTree

/-! ### Names in a directory -/

namespace Path

/-- A name that a file can have in its directory. -/
structure IsName (name : String) : Prop where
  noSlash : '/' ∉ name.toList
  ne_empty : name ≠ ""
  ne_dot : name ≠ "."
  ne_dots : name ≠ ".."

/-- The text of a path up to a name behind it. -/
def before (p : Path) : List Char :=
  p.root.toList ++ p.parts.flatMap fun part => part.toList ++ ['/']

theorem render_join (p : Path) (name : String) :
    (p.join ⟨"", [name]⟩).render.toList = p.before ++ name.toList := by
  have hparts : ∀ parts : List String, ("/".intercalate (parts ++ [name])).toList =
      (parts.flatMap fun part => part.toList ++ ['/']) ++ name.toList := by
    intro parts
    induction parts with
    | nil => simp
    | cons part parts ih =>
      rw [List.cons_append, String.intercalate_cons_of_ne_nil (by simp)]
      simp [ih]
  simp [join, isAbsolute, render, before, hparts]

theorem pieces_append_slash (piece cs ds : List Char) :
    pieces piece (cs ++ '/' :: ds) = pieces piece cs ++ pieces [] ds := by
  fun_induction pieces piece cs with
  | case1 piece => simp [pieces]
  | case2 piece cs ih => simp [pieces, ih]
  | case3 piece c cs hc ih => simp [pieces, hc, ih]

theorem pieces_of_noSlash {piece cs : List Char} (h : '/' ∉ cs) :
    pieces piece cs = [String.ofList (piece.reverse ++ cs)] := by
  fun_induction pieces piece cs with
  | case1 piece => simp
  | case2 piece cs ih => simp at h
  | case3 piece c cs hc ih => simpa using ih (fun hcs => h (List.mem_cons_of_mem c hcs))

theorem pieces_name {name : String} (h : IsName name) : pieces [] name.toList = [name] := by
  rw [pieces_of_noSlash h.noSlash]
  simp

theorem rootOf_of_noSlash {cs : List Char} (h : '/' ∉ cs) : rootOf cs = "" := by
  rcases cs with _ | ⟨c, cs⟩
  · rfl
  · have hc : c ≠ '/' := fun hc => h (hc ▸ List.mem_cons_self)
    simp [rootOf, hc]

theorem ofText_name {name : String} (h : IsName name) : ofText name = ⟨"", [name]⟩ := by
  rw [ofText, rootOf_of_noSlash h.noSlash, pieces_name h]
  simp [h.ne_empty, h.ne_dot]

/-- The text of a path up to a name behind it is empty or ends in a slash. -/
theorem before_ofText (text : String) :
    (ofText text).before = [] ∨ ∃ cs, (ofText text).before = cs ++ ['/'] := by
  have hroot : ∀ cs, rootOf cs = "" ∨ rootOf cs = "/" ∨ rootOf cs = "//" := by
    intro cs
    unfold rootOf
    split <;> simp
  rcases List.eq_nil_or_concat (ofText text).parts with hnil | ⟨parts, last, hparts⟩
  · rw [before, hnil]
    rcases hroot text.toList with h | h | h
    · exact .inl (by simp [ofText, h])
    · exact .inr ⟨[], by simp [ofText, h]⟩
    · exact .inr ⟨['/'], by simp [ofText, h]⟩
  · refine .inr ⟨(ofText text).root.toList ++
      (parts.flatMap fun part => part.toList ++ ['/']) ++ last.toList, ?_⟩
    simp [before, hparts]

end Path

namespace FileTree

variable {t : FileTree} {q : Place} {content : Bytes} {path name : String}

/-- A path with more steps behind it leads through a directory. -/
theorem follow_append {dir : Place} {steps rest : List String} {x : Target}
    (hrest : ∃ step ∈ rest, step ≠ "") (h : t.follow dir (steps ++ rest) = .ok x) :
    ∃ d, t.follow dir steps = .ok (.directory d) ∧ t.follow d rest = .ok x := by
  obtain ⟨last, hlast, hne⟩ := hrest
  have hrest : rest ≠ [] := List.ne_nil_of_mem hlast
  fun_induction follow t dir steps with
  | case1 dir => exact ⟨dir, rfl, h⟩
  | case2 dir step steps hskip ih =>
    rw [List.cons_append, follow, if_pos hskip] at h
    exact ih h
  | case3 dir steps hskip ih =>
    rw [List.cons_append, follow, if_neg hskip, if_pos rfl] at h
    exact ih h
  | case4 dir step steps hskip hup hlong =>
    rw [List.cons_append, follow, if_neg hskip, if_neg hup, if_pos hlong] at h
    cases h
  | case5 dir step steps hskip hup hlong hat ih =>
    rw [List.cons_append, follow, if_neg hskip, if_neg hup, if_neg hlong, hat] at h
    exact ih h
  | case6 dir step steps hskip hup hlong old hat
  | case7 dir step steps hskip hup hlong old hat =>
    rw [List.cons_append, follow, if_neg hskip, if_neg hup, if_neg hlong, hat] at h
    simp [hrest] at h
  | case8 dir step steps hskip hup hlong hat
  | case9 dir step steps hskip hup hlong hat =>
    have hsome : ¬(steps ++ rest).all (·.isEmpty) = true := by
      intro hall
      have hblank := List.all_eq_true.mp hall last (List.mem_append_right _ hlast)
      exact hne (by simpa using hblank)
    rw [List.cons_append, follow, if_neg hskip, if_neg hup, if_neg hlong, hat] at h
    simp only [hsome] at h
    cases h

theorem follow_name {dir : Place} (hname : Path.IsName name)
    (h : t.follow dir [name] = .ok (.file q content)) : q = dir ++ [name] := by
  have hskip : ¬(name.isEmpty || decide (name = ".")) = true := by
    simp [hname.ne_empty, hname.ne_dot]
  rw [follow, if_neg hskip, if_neg hname.ne_dots] at h
  by_cases hlong : maxName < name.utf8ByteSize
  · rw [if_pos hlong] at h
    cases h
  · rw [if_neg hlong] at h
    rcases hat : t.at? (dir ++ [name]) with _ | _ | old
    · simp [hat] at h
    · simp [hat, follow] at h
    · rw [hat] at h
      cases h
      rfl

/-- **Names keep the files of a directory apart**: the place of such a file is that of the
directory, which is the same for all names, and the name. -/
theorem place_of_name (t : FileTree) (text : String) : ∃ d : Place, ∀ name q, Path.IsName name →
    t.place? ((Path.ofText text).join ⟨"", [name]⟩).render = some q → q = d ++ [name] := by
  generalize hstart : (if (Path.ofText text).before.head? = some '/' then [] else t.home) = start
  -- the steps of a path to a name are those to its directory and the name
  obtain ⟨steps, hsteps⟩ : ∃ steps, ∀ name, Path.IsName name →
      Path.pieces [] ((Path.ofText text).before ++ name.toList) = steps ++ [name] ∧
      (if ((Path.ofText text).before ++ name.toList).head? = some '/' then [] else t.home) =
        start := by
    rcases Path.before_ofText text with hbefore | ⟨cs, hbefore⟩
    · refine ⟨[], fun name hname => ⟨?_, ?_⟩⟩
      · rw [hbefore, List.nil_append, Path.pieces_name hname, List.nil_append]
      · have hhead : name.toList.head? ≠ some '/' := fun h =>
          hname.noSlash (List.mem_of_mem_head? h)
        rw [hbefore, List.head?_nil, if_neg (by simp)] at hstart
        rw [hbefore, List.nil_append, if_neg hhead, hstart]
    · refine ⟨Path.pieces [] cs, fun name hname => ⟨?_, ?_⟩⟩
      · rw [hbefore, List.append_assoc, List.singleton_append, Path.pieces_append_slash,
          Path.pieces_name hname]
      · rw [List.head?_append_of_ne_nil _ (by simp [hbefore]), hstart]
  have hplace : ∀ name q, Path.IsName name →
      t.place? ((Path.ofText text).join ⟨"", [name]⟩).render = some q →
      ∃ d, t.follow start steps = .ok (.directory d) ∧ q = d ++ [name] := by
    intro name q hname h
    obtain ⟨content, htarget⟩ := target_of_place? h
    have hfollow := follow_of_target htarget
    rw [Path.render_join, (hsteps name hname).1, (hsteps name hname).2] at hfollow
    obtain ⟨d, hd, hfollow⟩ := follow_append ⟨name, by simp, hname.ne_empty⟩ hfollow
    exact ⟨d, hd, follow_name hname hfollow⟩
  by_cases hd : ∃ d, t.follow start steps = .ok (.directory d)
  · obtain ⟨d, hd⟩ := hd
    refine ⟨d, fun name q hname h => ?_⟩
    obtain ⟨d', hd', hq⟩ := hplace name q hname h
    rw [hd] at hd'
    cases hd'
    exact hq
  · refine ⟨[], fun name q hname h => ?_⟩
    obtain ⟨d, hd', -⟩ := hplace name q hname h
    exact absurd ⟨d, hd'⟩ hd

end FileTree

end AluVM
