import AluVM.Numeral
import AluVM.Text.Digit

/-! # Arguments of a command line

Options have short names (a dash and a letter) and long names (two dashes and a word). A long
name may be cut short as long as it stays unique. A value may be attached to an option, after an
equals sign or directly after a short name; two dashes that are attached are a blank value. What
is attached to a short option without a value is more short options. Two dashes alone end the
options. All other arguments stand together in one place. -/

namespace AluVM

/-- What an option does with a value. -/
inductive OptionKind where
  | flag
  /-- Takes a value that has to pass a check. -/
  | value (accepts : String → Bool)
  /-- Asks for help. -/
  | help

/-- An option and its names; the first one stands for it. -/
structure OptionSpec where
  names : List String
  kind : OptionKind

/-- Why a command line is not carried out. -/
inductive UsageStop where
  /-- It is refused. -/
  | refused
  /-- It asks for help. -/
  | help
  deriving DecidableEq, Repr

/-- The code with which a tool ends then. -/
def UsageStop.code : UsageStop → Nat
  | refused => 2
  | help => 0

namespace OptionSpec

/-- The name that stands for an option. -/
def name (o : OptionSpec) : String := o.names.headD ""

/-- Whether an option takes a value. -/
def takesValue (o : OptionSpec) : Bool := o.kind matches .value _

/-- The option that asks for help. -/
def help : OptionSpec := ⟨["-h", "--help"], .help⟩

/-- An option without a value. -/
def flag (names : List String) : OptionSpec := ⟨names, .flag⟩

/-- An option with a value. -/
def value (names : List String) (accepts : String → Bool := fun _ => true) : OptionSpec :=
  ⟨names, .value accepts⟩

/-- Whether a text is an integer. -/
def isInteger (text : String) : Bool := (Numeral.readIn 10 text.toList).toOption.isSome

end OptionSpec

namespace Arguments

/-! ### Words -/

/-- What an argument is. -/
inductive Word where
  | plain (text : String)
  /-- Two dashes, after which there are no options. -/
  | dashes
  /-- An option under a short or a long name, with what is attached to it. -/
  | option (spec : OptionSpec) (short : Bool) (attached : Option String)
  /-- What looks like an option but is none. -/
  | unknown

/-- An option under one of its names. -/
abbrev Named := String × OptionSpec

/-- All names of options. -/
def allNames (specs : List OptionSpec) : List Named :=
  specs.flatMap fun o => o.names.map fun n => (n, o)

/-- The option of a name. -/
def find? (specs : List OptionSpec) (name : String) : Option OptionSpec :=
  ((allNames specs).find? fun n => n.1 = name).map (·.2)

/-- Whether a text starts as a long name does. -/
def isLong (cs : List Char) : Bool := cs.take 2 = ['-', '-']

/-- The part of a text before its first equals sign, and what is after it. -/
def splitValue (cs : List Char) : String × Option String :=
  match cs.span (· ≠ '=') with
  | (name, _ :: value) => (String.ofList name, some (String.ofList value))
  | (name, []) => (String.ofList name, none)

/-- The options that a text with two dashes may mean. -/
def longMatches (specs : List OptionSpec) (cs : List Char) : List Word :=
  let (start, attached) := splitValue cs
  let found := (allNames specs).filter fun n => start.toList.isPrefixOf n.1.toList
  found.map fun n => .option n.2 false attached

/-- The options that a text with one dash may mean. -/
def shortMatches (specs : List OptionSpec) (cs : List Char) : List Word :=
  let found := (allNames specs).filter fun n => n.1.toList = cs.take 2
  found.map fun n => .option n.2 true (String.ofList (cs.drop 2))

/-- Whether a text consists of digits. -/
def isDigits (cs : List Char) : Bool := !cs.isEmpty && cs.all fun c => (Text.digitValue? c).isSome

/-- Whether a text is a dash and a decimal number. -/
def isNegative (cs : List Char) : Bool :=
  match cs with
  | '-' :: digits =>
    let digits := if digits.getLast? = some '\n' then digits.dropLast else digits
    let (whole, fraction) := digits.span (· ≠ '.')
    match fraction with
    | [] => isDigits whole
    | _ :: fraction => (whole.isEmpty || isDigits whole) && isDigits fraction
  | _ => false

/-- What a text that starts with a dash and is no name of an option is. -/
def classifyOther (specs : List OptionSpec) (text : String) : Except UsageStop Word :=
  let cs := text.toList
  let candidates := if isLong cs then longMatches specs cs else shortMatches specs cs
  match candidates with
  | [word] => .ok word
  | [] => .ok (if isNegative cs || cs.contains ' ' then .plain text else .unknown)
  | _ => .error .refused

/-- What an argument among the options is. -/
def classify (specs : List OptionSpec) (text : String) : Except UsageStop Word :=
  if text.toList.head? ≠ some '-' then .ok (.plain text)
  else
    match find? specs text with
    | some o => .ok (.option o (!isLong text.toList) none)
    | none =>
      if text = "-" then .ok (.plain text)
      else
        let (name, attached) := splitValue text.toList
        match find? specs name with
        | some o => .ok (.option o (!isLong name.toList) attached)
        | none => classifyOther specs text

/-- What the arguments are. -/
def classifyAll (specs : List OptionSpec) : List String → Except UsageStop (List Word)
  | [] => .ok []
  | text :: texts =>
    if text = "--" then .ok (.dashes :: texts.map .plain)
    else do
      let word ← classify specs text
      return word :: (← classifyAll specs texts)

/-! ### Reading -/

/-- An option that was given: its name, and its value if it has one. -/
structure Given where
  name : String
  value : Option String := none
  deriving DecidableEq, Repr

/-- An option to be carried out, with its value. -/
abbrev Act := OptionSpec × Option String

/-- Where plain arguments stand with respect to the place of reading. -/
inductive Plain where
  | before
  | here
  | behind
  deriving DecidableEq, Repr

/-- The arguments read so far; lists are in reverse order. -/
structure State where
  given : List Given := []
  plain : List String := []
  place : Plain := .before
  /-- Whether there were arguments that nothing takes. -/
  extra : Bool := false
  /-- Options that wait for the value of the last one. -/
  waiting : List OptionSpec := []

/-- Carries out an option. -/
def act (given : List Given) (a : Act) : Except UsageStop (List Given) :=
  match a.1.kind with
  | .help => .error .help
  | .flag => .ok (⟨a.1.name, none⟩ :: given)
  | .value accepts => if a.2.all accepts then .ok (⟨a.1.name, a.2⟩ :: given) else .error .refused

/-- Carries out options in their order. -/
def State.actAll (st : State) (acts : List Act) : Except UsageStop State := do
  return { st with given := ← acts.foldlM act st.given, waiting := [] }

/-- What an argument stands for: options without a value in reverse order, the option after them,
and the text that is attached to it. -/
structure Expansion where
  flags : List OptionSpec
  last : OptionSpec
  attached : Option String := none

/-- The options of letters that follow an option without a value; those of `done` are before it,
in reverse order. -/
def cluster (specs : List OptionSpec) (done : List OptionSpec) (o : OptionSpec) :
    List Char → Except UsageStop Expansion
  | [] => .ok ⟨done, o, none⟩
  | c :: cs =>
    match find? specs (String.ofList ['-', c]) with
    | none => .error .refused
    | some next =>
      if next.takesValue && !cs.isEmpty then .ok ⟨o :: done, next, some (String.ofList cs)⟩
      else cluster specs (o :: done) next cs

/-- What an option with an attachment stands for. -/
def expand (specs : List OptionSpec) (o : OptionSpec) (short : Bool) (attached : Option String) :
    Except UsageStop Expansion :=
  match attached with
  | none => .ok ⟨[], o, none⟩
  | some text =>
    if o.takesValue then .ok ⟨[], o, some text⟩
    else if short && !text.isEmpty then cluster specs [] o text.toList
    else .error .refused

/-- The value that an attached text is. -/
def attachedValue (text : String) : Option String := if text = "--" then none else some text

/-- Options to be carried out, those without a value in reverse order. -/
def acts (flags : List OptionSpec) (last : OptionSpec) (value : Option String) : List Act :=
  flags.reverse.map (·, none) ++ [(last, value)]

/-- Reads an option. -/
def readOption (specs : List OptionSpec) (st : State) (o : OptionSpec) (short : Bool)
    (attached : Option String) : Except UsageStop State := do
  let x ← expand specs o short attached
  match x.attached with
  | some text => st.actAll (acts x.flags x.last (attachedValue text))
  | none =>
    if x.last.takesValue then return { st with waiting := x.last :: x.flags }
    else st.actAll (acts x.flags x.last none)

/-- Leaves the place of plain arguments. -/
def State.leave (st : State) : State :=
  if st.place = .here then { st with place := .behind } else st

/-- Reads a plain argument, or the dashes if there is none. -/
def State.readPlain (st : State) (text : Option String) : State :=
  if st.place = .behind then { st with extra := true }
  else { st with place := .here, plain := text.toList ++ st.plain }

/-- Reads an argument. -/
def readWord (specs : List OptionSpec) (st : State) (word : Word) : Except UsageStop State :=
  match st.waiting with
  | last :: others =>
    match word with
    | .plain text => st.actAll (acts others last (some text))
    | _ => .error .refused
  | [] =>
    match word with
    | .plain text => .ok (st.readPlain (some text))
    | .dashes => .ok (st.readPlain none)
    | .unknown => .ok { st.leave with extra := true }
    | .option o short attached => readOption specs st.leave o short attached

end Arguments

/-- The arguments of a command line: options in the order in which they are given, and the plain
arguments. -/
structure Arguments where
  given : List Arguments.Given
  plain : List String
  deriving DecidableEq, Repr

namespace Arguments

/-- **Reads a command line.** Options that cannot be told apart are refused first; after that the
first thing that is wrong, or a request for help, decides. -/
def parse (specs : List OptionSpec) (atLeast : Nat) (texts : List String) :
    Except UsageStop Arguments := do
  let specs := OptionSpec.help :: specs
  let st ← (← classifyAll specs texts).foldlM (readWord specs) {}
  if !st.waiting.isEmpty || st.extra || st.plain.length < atLeast then throw .refused
  return { given := st.given.reverse, plain := st.plain.reverse }

/-- How often an option is given. -/
def count (a : Arguments) (name : String) : Nat := a.given.countP (·.name = name)

/-- Whether an option is given. -/
def has (a : Arguments) (name : String) : Bool := a.given.any (·.name = name)

/-- The values that an option is given; blank ones are none. -/
def values (a : Arguments) (name : String) : List (Option String) :=
  (a.given.filter (·.name = name)).map (·.value)

/-- The last value that an option is given, unless it is blank. -/
def last? (a : Arguments) (name : String) : Option String := (a.values name).getLast?.join

/-- The options among some whose last value is blank. -/
def blanks (a : Arguments) (names : List String) : List String :=
  names.filter fun name => (a.values name).getLast? = some none

end Arguments

end AluVM
