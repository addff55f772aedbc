import AluVM.Proofs.Declarations

/-! # Declaring and resolving in any order

Symbols are declared and resolved in place, in any order, before or after one another. An operation
does one of six things (`Does`), and a run of operations is told by two views of its past:

* `first? symbols ops space name`: the symbol that was declared first under a name. The table keeps it
  for good.
* `current? symbols ops handle`: a symbol as it was made, with the value of the first operation that
  resolves it if it was made without one.

`Follows symbols ops s` says that a store shows exactly these. One operation keeps it, with the
operation added to the past (`Follows.perform`), and so does a run (`follows_after`). -/

namespace AluVM.SymbolStore

/-! ### What an operation does -/

/-- **What an operation does to a store**: it declares a symbol, gives back the one that has the name,
resolves a symbol or refuses to. A handle without a symbol changes nothing. -/
inductive Does (s : SymbolStore) :
    Operation → Except AlreadyResolved (Option Nat) → SymbolStore → Prop where
  | declareAbsent {handle : Nat} (h : s.symbols[handle]? = none) :
      Does s (.declare handle) (.ok none) s
  | declare {handle : Nat} {x : Symbol} (hx : s.symbols[handle]? = some x)
      (hfree : s.holder? x.kind.space x.name = none) :
      Does s (.declare handle) (.ok none) { s with declared := handle :: s.declared }
  | taken {handle earlier : Nat} {x : Symbol} (hx : s.symbols[handle]? = some x)
      (hheld : s.holder? x.kind.space x.name = some earlier) :
      Does s (.declare handle) (.ok (some earlier)) s
  | resolveAbsent {handle : Nat} {value : Int} (h : s.symbols[handle]? = none) :
      Does s (.resolve handle value) (.ok none) s
  | resolve {handle : Nat} {value : Int} {x : Symbol} (hx : s.symbols[handle]? = some x)
      (hpending : x.value = none) : Does s (.resolve handle value) (.ok none)
        { s with symbols := s.symbols.set handle { x with value := some value } }
  | refuse {handle : Nat} {value old : Int} {x : Symbol} (hx : s.symbols[handle]? = some x)
      (hvalue : x.value = some old) :
      Does s (.resolve handle value) (.error (.of x.name old)) s

theorem exists_does (s : SymbolStore) (op : Operation) : ∃ result t, Does s op result t := by
  cases op with
  | declare handle =>
    rcases hx : s.symbols[handle]? with _ | x
    · exact ⟨_, _, .declareAbsent hx⟩
    · rcases hheld : s.holder? x.kind.space x.name with _ | earlier
      · exact ⟨_, _, .declare hx hheld⟩
      · exact ⟨_, _, .taken hx hheld⟩
  | resolve handle value =>
    rcases hx : s.symbols[handle]? with _ | x
    · exact ⟨_, _, .resolveAbsent hx⟩
    · rcases hvalue : x.value with _ | old
      · exact ⟨_, _, .resolve hx hvalue⟩
      · exact ⟨_, _, .refuse hx hvalue⟩

theorem set_self {symbols : List Symbol} {handle : Nat} {x : Symbol}
    (h : symbols[handle]? = some x) : symbols.set handle x = symbols := by
  obtain ⟨hlt, rfl⟩ := List.getElem?_eq_some_iff.mp h
  exact List.set_getElem_self hlt

/-- A pending symbol gets its value. -/
theorem run_resolve_of_none {x : Symbol} (h : x.value = none) (value : Int) :
    (Symbol.resolve value).run x = (.ok (), { x with value := some value }) := by
  obtain ⟨name, kind, old, pos⟩ := x
  cases h
  rfl

/-- A symbol with a value keeps it. -/
theorem run_resolve_of_some {x : Symbol} {old : Int} (h : x.value = some old) (value : Int) :
    (Symbol.resolve value).run x = (.error (.of x.name old), x) := by
  obtain ⟨name, kind, _, pos⟩ := x
  cases h
  rfl

theorem run_get_bind {α : Type} (f : SymbolStore → Work α) (s : SymbolStore) :
    (get >>= f : Work α).run s = (f s).run s := rfl

theorem Does.perform_eq {s t : SymbolStore} {op : Operation}
    {result : Except AlreadyResolved (Option Nat)} (h : Does s op result t) :
    s.perform op = (result, t) := by
  cases h with
  | declareAbsent hx =>
    rw [SymbolStore.perform, Operation.work, Work.declare, run_get_bind, hx]
    rfl
  | declare hx hfree =>
    rw [SymbolStore.perform, Operation.work, Work.declare, run_get_bind, hx]
    simp only [hfree]
    rfl
  | taken hx hheld =>
    rw [SymbolStore.perform, Operation.work, Work.declare, run_get_bind, hx]
    simp only [hheld]
    rfl
  | resolveAbsent hx =>
    rw [SymbolStore.perform, Operation.work, Work.resolve, bind_assoc, run_get_bind, hx]
    rfl
  | resolve hx hpending =>
    rw [SymbolStore.perform, Operation.work, Work.resolve, bind_assoc, run_get_bind, hx]
    simp only [run_resolve_of_none hpending]
    rfl
  | refuse hx hvalue =>
    rw [SymbolStore.perform, Operation.work, Work.resolve, bind_assoc, run_get_bind, hx]
    simp only [run_resolve_of_some hvalue, set_self hx]
    rfl

theorem exists_of_any_isAt {found : Option Symbol} {space : Namespace} {name : String}
    (h : found.any (Symbol.isAt space name) = true) :
    ∃ x, found = some x ∧ x.kind.space = space ∧ x.name = name := by
  rcases found with _ | x
  · cases h
  · exact ⟨x, rfl, SymbolTable.isAt_iff.mp h⟩

theorem get?_table (s : SymbolStore) (space : Namespace) (name : String) :
    s.table.get? space name = (s.holder? space name).bind (s.symbols[·]?) :=
  List.find?_filterMap

/-- **To declare a symbol in a store is to declare it in the table of the store.** -/
theorem table_perform_declare {s : SymbolStore} {handle : Nat} {x : Symbol}
    (hx : s.symbols[handle]? = some x) :
    (s.perform (.declare handle)).2.table = s.table.declare x := by
  unfold SymbolTable.declare
  rw [get?_table]
  rcases hheld : s.holder? x.kind.space x.name with _ | earlier
  · rw [(Does.declare hx hheld).perform_eq]
    simp only [table, List.filterMap_cons, hx, Option.bind_none]
  · rw [(Does.taken hx hheld).perform_eq]
    have hat := List.find?_some hheld
    obtain ⟨y, hy, -⟩ := exists_of_any_isAt hat
    simp only [Option.bind_some, hy]

/-! ### The past of a store -/

/-- The handle that an operation declares. -/
def Operation.declared? : Operation → Option Nat
  | .declare handle => some handle
  | .resolve _ _ => none

/-- The value that an operation gives to the symbol under a handle. -/
def Operation.valueFor? (handle : Nat) : Operation → Option Int
  | .declare _ => none
  | .resolve other value => if other = handle then some value else none

/-- The handles that operations declare, in their order and as often as they do. -/
def declarations (ops : List Operation) : List Nat := ops.filterMap Operation.declared?

/-- **The symbol that was declared first** under a name in a namespace. -/
def first? (symbols : List Symbol) (ops : List Operation) (space : Namespace) (name : String) :
    Option Nat :=
  (declarations ops).find? fun handle => symbols[handle]?.any (Symbol.isAt space name)

/-- **A symbol after operations**: as it was made, and if it was pending then, with the value that it
was first given. -/
def current? (symbols : List Symbol) (ops : List Operation) (handle : Nat) : Option Symbol :=
  symbols[handle]?.map fun x =>
    { x with value := x.value.or (ops.findSome? (·.valueFor? handle)) }

section Past
variable {symbols : List Symbol} {ops : List Operation}

/-- Operations change neither the name nor the kind of a symbol. -/
theorem any_isAt_current? (ops : List Operation) (handle : Nat) (space : Namespace)
    (name : String) : (current? symbols ops handle).any (Symbol.isAt space name) =
      symbols[handle]?.any (Symbol.isAt space name) := by
  rw [current?]
  cases symbols[handle]? <;> rfl

theorem current?_eq_some {handle : Nat} {x : Symbol} (h : current? symbols ops handle = some x) :
    ∃ y, symbols[handle]? = some y ∧ y.kind = x.kind ∧ y.name = x.name := by
  obtain ⟨y, hy, rfl⟩ := Option.map_eq_some_iff.mp h
  exact ⟨y, hy, rfl, rfl⟩

theorem first?_append (more : List Operation) (space : Namespace) (name : String) :
    first? symbols (ops ++ more) space name =
      (first? symbols ops space name).or (first? symbols more space name) := by
  rw [first?, declarations, List.filterMap_append, List.find?_append]
  rfl

theorem first?_eq_some {space : Namespace} {name : String} {handle : Nat}
    (h : first? symbols ops space name = some handle) :
    ∃ x, symbols[handle]? = some x ∧ x.kind.space = space ∧ x.name = name := by
  have hat := List.find?_some h
  exact exists_of_any_isAt hat

theorem mem_declarations_of_first? {space : Namespace} {name : String} {handle : Nat}
    (h : first? symbols ops space name = some handle) : handle ∈ declarations ops :=
  List.mem_of_find?_eq_some h

/-- What is declared under a free name was not declared before. -/
theorem not_mem_declarations {handle : Nat} {x : Symbol} (hx : symbols[handle]? = some x)
    (h : first? symbols ops x.kind.space x.name = none) : handle ∉ declarations ops := by
  intro hmem
  have hnot := List.find?_eq_none.mp h handle hmem
  simp [hx, Symbol.isAt] at hnot

theorem current?_append_of_some {handle : Nat} {x : Symbol} {value : Int}
    (h : current? symbols ops handle = some x) (hvalue : x.value = some value)
    (more : List Operation) : current? symbols (ops ++ more) handle = some x := by
  obtain ⟨y, hy, rfl⟩ := Option.map_eq_some_iff.mp h
  simp only at hvalue
  simp [current?, hy, List.findSome?_append, ← Option.or_assoc, hvalue]

/-- An operation that changes neither the first declarations nor the symbols. -/
structure Idle (symbols : List Symbol) (ops : List Operation) (op : Operation) : Prop where
  first (space : Namespace) (name : String) :
    first? symbols (ops ++ [op]) space name = first? symbols ops space name
  symbol (handle : Nat) : current? symbols (ops ++ [op]) handle = current? symbols ops handle

theorem first?_append_declare (handle : Nat) (space : Namespace) (name : String) :
    first? symbols (ops ++ [.declare handle]) space name =
      (first? symbols ops space name).or
        (if symbols[handle]?.any (Symbol.isAt space name) then some handle else none) := by
  rw [first?_append]
  congr 1
  show List.find? _ [handle] = _
  rw [List.find?_singleton]

theorem first?_append_resolve (handle : Nat) (value : Int) (space : Namespace) (name : String) :
    first? symbols (ops ++ [.resolve handle value]) space name = first? symbols ops space name := by
  rw [first?_append]
  exact Option.or_none

theorem current?_append_declare (handle other : Nat) :
    current? symbols (ops ++ [.declare handle]) other = current? symbols ops other := by
  simp [current?, List.findSome?_append, Operation.valueFor?]

theorem current?_append_resolve (handle other : Nat) (value : Int) :
    current? symbols (ops ++ [.resolve handle value]) other =
      (current? symbols ops other).map fun x =>
        if handle = other then { x with value := x.value.or (some value) } else x := by
  rw [current?, current?, Option.map_map]
  congr 1
  funext x
  by_cases hother : handle = other
  · simp [hother, List.findSome?_append, Operation.valueFor?]
  · simp [hother, List.findSome?_append, Operation.valueFor?]

end Past

/-! ### What a run keeps -/

/-- **The store shows its past.** -/
structure Follows (symbols : List Symbol) (ops : List Operation) (s : SymbolStore) : Prop where
  /-- Every symbol is what the operations have made of it. -/
  symbol (handle : Nat) : s.symbols[handle]? = current? symbols ops handle
  /-- The table has the symbols that were declared first under their names. -/
  mem_declared (handle : Nat) : handle ∈ s.declared ↔
    ∃ x, symbols[handle]? = some x ∧ first? symbols ops x.kind.space x.name = some handle
  /-- The table has its symbols in the order of their first declarations. -/
  order : s.declared.reverse.Pairwise fun a b =>
    (declarations ops).idxOf a < (declarations ops).idxOf b

theorem follows_start (symbols : List Symbol) : Follows symbols [] { symbols } where
  symbol handle := by
    rw [current?]
    cases symbols[handle]? <;> simp
  mem_declared handle := by simp [first?, declarations]
  order := List.Pairwise.nil

section Follows
variable {symbols : List Symbol} {ops : List Operation} {s : SymbolStore}
  (h : Follows symbols ops s)
include h

theorem Follows.mem_declarations {handle : Nat} (hmem : handle ∈ s.declared) :
    handle ∈ declarations ops := by
  obtain ⟨x, -, hfirst⟩ := (h.mem_declared handle).mp hmem
  exact mem_declarations_of_first? hfirst

/-- **The table keeps the symbol that was declared first.** -/
theorem Follows.holder?_eq (space : Namespace) (name : String) :
    s.holder? space name = first? symbols ops space name := by
  have hown : ∀ {handle : Nat}, handle ∈ s.declared →
      symbols[handle]?.any (Symbol.isAt space name) = true →
      first? symbols ops space name = some handle := by
    intro handle hmem hat
    obtain ⟨x, hx, hfirst⟩ := (h.mem_declared handle).mp hmem
    rw [hx] at hat
    obtain ⟨rfl, rfl⟩ := SymbolTable.isAt_iff.mp hat
    exact hfirst
  have hholder : s.holder? space name =
      s.declared.find? fun handle => symbols[handle]?.any (Symbol.isAt space name) := by
    rw [holder?]
    congr 1
    funext handle
    rw [h.symbol, any_isAt_current?]
  rw [hholder]
  rcases hfound : s.declared.find? fun handle =>
      symbols[handle]?.any (Symbol.isAt space name) with _ | found
  · rcases hfirst : first? symbols ops space name with _ | first
    · rfl
    · obtain ⟨x, hx, rfl, rfl⟩ := first?_eq_some hfirst
      have hnot := List.find?_eq_none.mp hfound first ((h.mem_declared first).mpr ⟨x, hx, hfirst⟩)
      simp [hx, Symbol.isAt] at hnot
  · have hat := List.find?_some hfound
    exact (hown (List.mem_of_find?_eq_some hfound) hat).symm

/-- What is declared later does not change the order. -/
theorem Follows.order_append (more : List Nat) : s.declared.reverse.Pairwise fun a b =>
    (declarations ops ++ more).idxOf a < (declarations ops ++ more).idxOf b := by
  refine h.order.imp_of_mem fun ha hb hlt => ?_
  rw [List.mem_reverse] at ha hb
  rwa [List.idxOf_append_of_mem (h.mem_declarations ha),
    List.idxOf_append_of_mem (h.mem_declarations hb)]

/-- An idle operation needs no change of the store. -/
theorem Follows.idle {op : Operation} (hidle : Idle symbols ops op) :
    Follows symbols (ops ++ [op]) s where
  symbol handle := by rw [h.symbol, hidle.symbol]
  mem_declared handle := by simp only [h.mem_declared, hidle.first]
  order := by
    rw [declarations, List.filterMap_append]
    exact h.order_append _

/-- A symbol is declared under a free name. -/
theorem Follows.declare {handle : Nat} {x : Symbol} (hx : symbols[handle]? = some x)
    (hfree : first? symbols ops x.kind.space x.name = none) :
    Follows symbols (ops ++ [.declare handle]) { s with declared := handle :: s.declared } where
  symbol other := by rw [h.symbol, current?_append_declare]
  mem_declared other := by
    rw [List.mem_cons, h.mem_declared]
    constructor
    · rintro (rfl | ⟨y, hy, hfirst⟩)
      · refine ⟨x, hx, ?_⟩
        rw [first?_append_declare, hfree, hx]
        simp [Symbol.isAt]
      · refine ⟨y, hy, ?_⟩
        rw [first?_append_declare, hfirst, Option.some_or]
    · rintro ⟨y, hy, hfirst⟩
      rw [first?_append_declare, Option.or_eq_some_iff] at hfirst
      rcases hfirst with hfirst | ⟨-, hnew⟩
      · exact .inr ⟨y, hy, hfirst⟩
      · split_ifs at hnew
        exact .inl (Option.some.inj hnew).symm
  order := by
    have hnew : handle ∉ declarations ops := not_mem_declarations hx hfree
    have happend : declarations (ops ++ [.declare handle]) = declarations ops ++ [handle] := by
      rw [declarations, List.filterMap_append]
      rfl
    rw [happend, List.reverse_cons, List.pairwise_append]
    refine ⟨h.order_append _, List.pairwise_singleton _ _, fun a ha b hb => ?_⟩
    have hmem := h.mem_declarations (List.mem_reverse.mp ha)
    have hlt := List.idxOf_lt_length_of_mem hmem
    rw [List.mem_singleton.mp hb, List.idxOf_append_of_mem hmem, List.idxOf_append_of_notMem hnew]
    omega

/-- A pending symbol is resolved. -/
theorem Follows.resolve {handle : Nat} {x : Symbol} (hx : s.symbols[handle]? = some x)
    (hpending : x.value = none) (value : Int) :
    Follows symbols (ops ++ [.resolve handle value])
      { s with symbols := s.symbols.set handle { x with value := some value } } where
  symbol other := by
    rw [current?_append_resolve, ← h.symbol, List.getElem?_set]
    split_ifs with hother hlt
    · subst hother
      simp [hx, hpending]
    · exact absurd (List.getElem?_eq_some_iff.mp hx).1 hlt
    · simp
  mem_declared other := by simp only [h.mem_declared, first?_append_resolve]
  order := by
    have hsame : declarations (ops ++ [.resolve handle value]) = declarations ops := by
      rw [declarations, List.filterMap_append]
      exact List.append_nil _
    rw [hsame]
    exact h.order

/-- **One operation keeps the store in step with its past.** -/
theorem Follows.perform (op : Operation) : Follows symbols (ops ++ [op]) (s.perform op).2 := by
  obtain ⟨result, t, hdoes⟩ := exists_does s op
  rw [hdoes.perform_eq]
  cases hdoes with
  | @declareAbsent handle hx =>
    refine h.idle ⟨fun space name => ?_, current?_append_declare handle⟩
    rw [first?_append_declare, ← any_isAt_current? ops, ← h.symbol, hx]
    simp
  | declare hx hfree =>
    rw [h.symbol] at hx
    obtain ⟨y, hy, hkind, hname⟩ := current?_eq_some hx
    refine h.declare hy ?_
    rw [hkind, hname, ← h.holder?_eq, hfree]
  | @taken handle earlier x hx hheld =>
    refine h.idle ⟨fun space name => ?_, current?_append_declare handle⟩
    rw [first?_append_declare, ← any_isAt_current? ops, ← h.symbol, hx]
    by_cases hat : x.isAt space name = true
    · obtain ⟨rfl, rfl⟩ := SymbolTable.isAt_iff.mp hat
      rw [← h.holder?_eq, hheld, Option.some_or]
    · simp [hat]
  | @resolveAbsent handle value hx =>
    refine h.idle ⟨first?_append_resolve handle value, fun other => ?_⟩
    rw [current?_append_resolve]
    by_cases hother : handle = other
    · subst hother
      rw [← h.symbol, hx]
      rfl
    · simp [hother]
  | resolve hx hpending => exact h.resolve hx hpending _
  | @refuse handle value old x hx hvalue =>
    refine h.idle ⟨first?_append_resolve handle value, fun other => ?_⟩
    rw [current?_append_resolve]
    by_cases hother : handle = other
    · subst hother
      rw [← h.symbol, hx, Option.map_some, if_pos rfl, hvalue, Option.some_or, ← hvalue]
    · simp [hother]

end Follows

/-- The store after operations, whatever they come to. -/
def after (s : SymbolStore) (ops : List Operation) : SymbolStore :=
  ops.foldl (fun s op => (s.perform op).2) s

theorem Follows.after {symbols : List Symbol} {ops : List Operation} {s : SymbolStore}
    (h : Follows symbols ops s) (more : List Operation) :
    Follows symbols (ops ++ more) (s.after more) := by
  induction more generalizing ops s with
  | nil => rwa [List.append_nil]
  | cons op more ih =>
    rw [List.append_cons]
    exact ih (h.perform op)

theorem follows_after (symbols : List Symbol) (ops : List Operation) :
    Follows symbols ops (after { symbols } ops) := (follows_start symbols).after ops

/-! ### The views of a table -/

section Views
variable {symbols : List Symbol} {ops : List Operation} {s : SymbolStore}
  (h : Follows symbols ops s)
include h

theorem Follows.get?_table (space : Namespace) (name : String) : s.table.get? space name =
    (first? symbols ops space name).bind (current? symbols ops) := by
  have hsymbol : (s.symbols[·]?) = current? symbols ops := funext h.symbol
  rw [SymbolStore.get?_table, h.holder?_eq, hsymbol]

theorem Follows.toList_table :
    s.table.toList = s.declared.reverse.filterMap (current? symbols ops) := by
  have hsymbol : (s.symbols[·]?) = current? symbols ops := funext h.symbol
  rw [SymbolTable.toList, table, ← List.filterMap_reverse, hsymbol]

/-- A part of the table, in the order of the table. -/
theorem Follows.filter_table (p : Symbol → Bool) : s.table.toList.filter p =
    s.declared.reverse.filterMap fun handle => (current? symbols ops handle).filter p := by
  rw [h.toList_table, List.filter_filterMap]

end Views

/-- **What declaring and resolving keep**, in any order and on any symbols. Under every name of a
namespace the table keeps the symbol that was declared there first; whatever is declared there later
gives that symbol back and changes nothing. What a declaration does to the table of the store is
`SymbolTable.declare`. The table goes through its symbols in the order of their first declarations,
and so do the symbols without a value and those of a name. A symbol that is pending gets the first
value that it is given; then it stays as it is, and to resolve it again fails. -/
theorem first_kept_and_resolved_once (symbols : List Symbol) (ops more : List Operation) :
    let s := after { symbols } ops
    let t := s.after more
    let order := s.declared.reverse
    (∀ space name, s.holder? space name = first? symbols ops space name ∧
      s.table.get? space name = (first? symbols ops space name).bind (current? symbols ops) ∧
      ∀ handle, s.holder? space name = some handle → t.holder? space name = some handle) ∧
    (∀ handle x earlier, symbols[handle]? = some x →
      first? symbols ops x.kind.space x.name = some earlier →
      s.perform (.declare handle) = (.ok (some earlier), s)) ∧
    (∀ handle x, s.symbols[handle]? = some x →
      (s.perform (.declare handle)).2.table = s.table.declare x) ∧
    ((∀ handle, handle ∈ order ↔
        ∃ x, symbols[handle]? = some x ∧ first? symbols ops x.kind.space x.name = some handle) ∧
      order.Pairwise (fun a b => (declarations ops).idxOf a < (declarations ops).idxOf b) ∧
      s.table.toList = order.filterMap (current? symbols ops)) ∧
    (∀ handle, s.symbols[handle]? = current? symbols ops handle) ∧
    (∀ handle x, s.symbols[handle]? = some x →
      (∀ old, x.value = some old → t.symbols[handle]? = some x ∧
        ∀ value, s.perform (.resolve handle value) = (.error (.of x.name old), s)) ∧
      (x.value = none → ∀ value, s.perform (.resolve handle value) =
        (.ok none, { s with symbols := s.symbols.set handle { x with value := some value } }))) ∧
    s.table.pending =
      order.filterMap (fun handle => (current? symbols ops handle).filter (·.value.isNone)) ∧
    ∀ name, s.table.find name =
      order.filterMap fun handle => (current? symbols ops handle).filter (·.name = name) := by
  intro s t order
  have hs : Follows symbols ops s := follows_after symbols ops
  have ht : Follows symbols (ops ++ more) t := hs.after more
  refine ⟨fun space name => ⟨hs.holder?_eq space name, hs.get?_table space name, ?_⟩, ?_,
    fun handle x => table_perform_declare, ⟨?_, hs.order, hs.toList_table⟩, hs.symbol, ?_,
    hs.filter_table _, fun name => hs.filter_table _⟩
  · intro handle hheld
    rw [hs.holder?_eq] at hheld
    rw [ht.holder?_eq, first?_append, hheld, Option.some_or]
  · intro handle x earlier hx hfirst
    have hcurrent : s.symbols[handle]? = some { x with
        value := x.value.or (ops.findSome? (·.valueFor? handle)) } := by
      rw [hs.symbol, current?, hx, Option.map_some]
    exact (Does.taken hcurrent ((hs.holder?_eq _ _).trans hfirst)).perform_eq
  · intro handle
    rw [List.mem_reverse, hs.mem_declared]
  · intro handle x hx
    refine ⟨fun old hold => ⟨?_, fun value => (Does.refuse hx hold).perform_eq⟩,
      fun hpending value => (Does.resolve hx hpending).perform_eq⟩
    rw [hs.symbol] at hx
    rw [ht.symbol]
    exact current?_append_of_some hx hold more

/-- A label, a datum and a routine of one name. -/
def threeOfOneName : List Symbol :=
  [{ name := "x", kind := .localLabel, value := some 0 }, { name := "x", kind := .dataSymbol },
    { name := "x", kind := .exportedLabel }]

/-- The routine gets a value and comes too late. -/
def lateRoutine : List Operation :=
  [.declare 1, .resolve 2 8, .declare 0, .declare 2, .resolve 1 4]

theorem first_kept_of_threeOfOneName :
    let s := after { symbols := threeOfOneName } lateRoutine
    let t := s.after [.resolve 0 5, .declare 2]
    (s.holder? .code "x" = some 0 ∧ t.holder? .code "x" = some 0) ∧
      s.perform (.declare 2) = (.ok (some 0), s) ∧
      s.perform (.resolve 1 7) = (.error (.bound "x" 4), s) ∧
      s.table.find "x" = [{ name := "x", kind := .dataSymbol, value := some 4 },
        { name := "x", kind := .localLabel, value := some 0 }] := by
  obtain ⟨hkept, htaken, -, -, -, hvalue, -, hfind⟩ :=
    first_kept_and_resolved_once threeOfOneName lateRoutine [.resolve 0 5, .declare 2]
  have hholder := (hkept .code "x").1
  refine ⟨⟨hholder, (hkept .code "x").2.2 0 hholder⟩, htaken 2 _ 0 rfl rfl, ?_, hfind "x"⟩
  have hshown : AlreadyResolved.of "x" 4 = .bound "x" 4 := by decide +kernel
  rw [← hshown]
  exact ((hvalue 1 _ rfl).1 4 rfl).2 7

end AluVM.SymbolStore
