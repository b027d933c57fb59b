import TreeScript.Operation.Outline
import TreeScript.Proofs.Text.Quoting

/-!
# Headings of outlines

The first line of an operation's outline shows what the operation is, without the operations that
it is made of: its `Label`. It begins with a word for the kind of the operation, and what follows
tells the names, constants and numbers of that kind. Labels can be read off their headings, as long
as names are words and no constant is a floating-point number. No heading has a line feed in it.
-/

namespace TreeScript

/-- What an operation is, without the operations that it is made of. -/
inductive Label where
  | literal (value : Literal)
  | getVariable (name : String)
  | setVariable (name : String) (policy : Policy) (declaration : Bool)
  | getMember (member : String)
  | setMember (member : String)
  | getIndex
  | setIndex
  | call (arguments : Nat)
  | createList (elements : Nat)
  | binary (operator : BinaryOperator)
  | unary (operator : UnaryOperator)
  | stackPush
  | stackPop
  | giveBack
  | function (name : String) (parameters : List String)
  | conditional
  | block

def Operation.label : Operation → Label
  | literal value => .literal value
  | getVariable name => .getVariable name
  | setVariable name _ policy declaration => .setVariable name policy declaration
  | getMember _ member => .getMember member
  | setMember _ member _ => .setMember member
  | getIndex _ _ => .getIndex
  | setIndex _ _ _ => .setIndex
  | call _ arguments => .call arguments.length
  | createList elements => .createList elements.length
  | binary operator _ _ => .binary operator
  | unary operator _ => .unary operator
  | stackPush _ => .stackPush
  | stackPop _ => .stackPop
  | giveBack _ => .giveBack
  | function name parameters _ => .function name parameters
  | ifThen _ _ | ifThenElse _ _ _ => .conditional
  | block _ => .block

/-- A name that can be told from what stands around it: not empty, and without blanks, line feeds,
parentheses and commas. -/
def IsWordName (name : String) : Prop :=
  name ≠ "" ∧ ∀ c ∈ name.toList, c ∉ [' ', '\n', '(', ')', ',']

/-- Whether a constant is a floating-point number. -/
def Literal.isFloating : Literal → Bool
  | float _ | double _ => true
  | _ => false

namespace Label

/-- The names of variables, members, functions and parameters. -/
def names : Label → List String
  | getVariable name | setVariable name _ _ => [name]
  | getMember member | setMember member => [member]
  | function name parameters => name :: parameters
  | _ => []

/-- All names are words, and the constant, if there is one, is no floating-point number. -/
def IsPlain (label : Label) : Prop :=
  (∀ name ∈ label.names, IsWordName name) ∧
    ∀ value, label = .literal value → value.isFloating = false

/-- The word for the kind of operation. -/
def word : Label → String
  | literal _ => "Literal"
  | getVariable _ => "GetVariable"
  | setVariable _ _ _ => "SetVariable"
  | getMember _ => "GetMember"
  | setMember _ => "SetMember"
  | getIndex => "GetIndex"
  | setIndex => "SetIndex"
  | call _ => "Call"
  | createList _ => "CreateList"
  | binary _ => "Binary"
  | unary _ => "Unary"
  | stackPush => "StackPush"
  | stackPop => "StackPop"
  | giveBack => "Return"
  | function _ _ => "FunctionDefinition"
  | conditional => "If"
  | block => "ScopeBlock"

/-- The policy of an assignment, with a mark for declarations. -/
def manner (policy : Policy) (declaration : Bool) : String :=
  policy.name ++ if declaration then ", declaration" else ""

/-- What follows the word. -/
def detail : Label → String
  | literal value => " " ++ value.describe
  | getVariable name => " " ++ name
  | setVariable name policy declaration =>
    " " ++ (name ++ (" (" ++ manner policy declaration ++ ")"))
  | getMember member | setMember member => " ." ++ member
  | call arguments => " (" ++ toString arguments ++ " args)"
  | createList elements => " (" ++ toString elements ++ " elements)"
  | binary operator => " " ++ operator.name ++ " (" ++ operator.symbol ++ ")"
  | unary operator => " " ++ operator.name
  | function name parameters => " " ++ (name ++ ("(" ++ ", ".intercalate parameters ++ ")"))
  | _ => ""

def heading (label : Label) : String := label.word ++ label.detail

end Label

/-! ## Names -/

section

variable {name name' : String}

/-- A name ends where a character follows that it cannot hold. -/
theorem IsWordName.append_injective {c : Char} {rest rest' : String}
    (hname : IsWordName name) (hname' : IsWordName name') (hc : c ∈ [' ', '\n', '(', ')', ','])
    (hrest : Scan.Stops (· != c) rest.toList) (hrest' : Scan.Stops (· != c) rest'.toList)
    (h : name ++ rest = name' ++ rest') : name = name' ∧ rest = rest' := by
  have hrun {text : String} (htext : IsWordName text) : ∀ d ∈ text.toList, (d != c) = true := by
    intro d hd
    rw [bne_iff_ne]
    rintro rfl
    exact htext.2 d hd hc
  have hchars := congrArg String.toList h
  rw [String.toList_append, String.toList_append] at hchars
  obtain ⟨hsame, hafter⟩ :=
    Scan.append_injective_of_stops (hrun hname) (hrun hname') hrest hrest' hchars
  exact ⟨String.toList_inj.mp hsame, String.toList_inj.mp hafter⟩

/-- The parameters after the first one. -/
def parameterTail (parameters : List String) : String :=
  if parameters = [] then "" else ", " ++ ", ".intercalate parameters

/-- Names are joined by a comma before each but the first. -/
theorem intercalate_cons (name : String) (parameters : List String) :
    ", ".intercalate (name :: parameters) = name ++ parameterTail parameters := by
  cases parameters with
  | nil => simp [parameterTail]
  | cons next rest =>
    rw [String.intercalate_cons_cons, parameterTail, if_neg (List.cons_ne_nil _ _),
      String.append_assoc]

/-- A name ends at the comma behind it. -/
theorem stops_parameterTail (parameters : List String) :
    Scan.Stops (· != ',') (parameterTail parameters).toList := by
  unfold parameterTail
  split
  · exact fun c hc => nomatch hc
  · rw [String.toList_append]
    exact Scan.stops_cons rfl _

/-- Parameters are read off the commas between them. -/
theorem intercalate_injective {first second : List String}
    (hfirst : ∀ name ∈ first, IsWordName name) (hsecond : ∀ name ∈ second, IsWordName name)
    (h : ", ".intercalate first = ", ".intercalate second) : first = second := by
  have hne {name : String} (rest : List String) (hname : IsWordName name) :
      ", ".intercalate (name :: rest) ≠ "" := by
    rw [intercalate_cons]
    intro hempty
    exact hname.1 (String.append_eq_empty_iff.mp hempty).1
  induction first generalizing second with
  | nil =>
    cases second with
    | nil => rfl
    | cons name rest => exact absurd h.symm (hne rest (hsecond name List.mem_cons_self))
  | cons name rest ih =>
    obtain ⟨hname, hrest⟩ := List.forall_mem_cons.mp hfirst
    cases second with
    | nil => exact absurd h (hne rest hname)
    | cons name' rest' =>
      obtain ⟨hname', hrest'⟩ := List.forall_mem_cons.mp hsecond
      rw [intercalate_cons, intercalate_cons] at h
      obtain ⟨rfl, htail⟩ := hname.append_injective hname' (by decide) (stops_parameterTail rest)
        (stops_parameterTail rest') h
      unfold parameterTail at htail
      split at htail <;> split at htail
      · simp_all
      · exact absurd (String.append_eq_empty_iff.mp htail.symm).1 (by decide)
      · exact absurd (String.append_eq_empty_iff.mp htail).1 (by decide)
      · rw [ih hrest hrest' ((String.append_right_inj _).mp htail)]

end

/-! ## Constants -/

/-- A constant is read off its text. Its type is told by the first letter. -/
theorem Literal.describe_injective {first second : Literal} (hfirst : first.isFloating = false)
    (hsecond : second.isFloating = false) (h : first.describe = second.describe) :
    first = second := by
  have hstring (text : String) : toString text = text := rfl
  have hbetween {front back inner inner' : String}
      (h : front ++ inner ++ back = front ++ inner' ++ back) : inner = inner' :=
    (String.append_right_inj front).mp ((String.append_left_inj back).mp h)
  cases first with
  | bool value =>
    cases second with
    | bool other => cases value <;> cases other <;> first | rfl | exact absurd h (by decide)
    | float _ | double _ => cases hsecond
    | _ => exact absurd (congrArg (·.toList.head?) h) (by simp [describe, hstring])
  | int value =>
    cases second with
    | int other => rw [Int32.toInt_inj.mp (Text.intText_injective (hbetween h))]
    | float _ | double _ => cases hsecond
    | _ => exact absurd (congrArg (·.toList.head?) h) (by simp [describe, hstring])
  | long value =>
    cases second with
    | long other => rw [Int64.toInt_inj.mp (Text.intText_injective (hbetween h))]
    | float _ | double _ => cases hsecond
    | _ => exact absurd (congrArg (·.toList.head?) h) (by simp [describe, hstring])
  | string value =>
    cases second with
    | string other => rw [Text.quote_injective (hbetween h)]
    | float _ | double _ => cases hsecond
    | _ => exact absurd (congrArg (·.toList.head?) h) (by simp [describe, hstring])
  | null =>
    cases second with
    | null => rfl
    | float _ | double _ => cases hsecond
    | _ => exact absurd (congrArg (·.toList.head?) h) (by simp [describe, hstring])
  | float _ | double _ => cases hfirst

/-! ## Headings tell labels apart -/

namespace Label

variable {first second : Label}

/-- The word and what follows it are read off the heading, as no word has a blank in it. -/
theorem word_detail_of_heading (h : first.heading = second.heading) :
    first.word = second.word ∧ first.detail = second.detail := by
  have hword (label : Label) : ∀ c ∈ label.word.toList, (c != ' ') = true := by
    cases label <;> simp [word]
  have hdetail (label : Label) : Scan.Stops (· != ' ') label.detail.toList := by
    cases label <;> simp [detail, Scan.Stops]
  have hchars := congrArg String.toList h
  rw [heading, heading, String.toList_append, String.toList_append] at hchars
  obtain ⟨hsame, hrest⟩ := Scan.append_injective_of_stops (hword first) (hword second)
    (hdetail first) (hdetail second) hchars
  exact ⟨String.toList_inj.mp hsame, String.toList_inj.mp hrest⟩

/-- The wording tells the policy and whether it declares. -/
theorem manner_injective {policy policy' : Policy} {declaration declaration' : Bool}
    (h : manner policy declaration = manner policy' declaration') :
    policy = policy' ∧ declaration = declaration' := by
  cases policy <;> cases declaration <;> cases policy' <;> cases declaration' <;>
    first | exact ⟨rfl, rfl⟩ | simp [manner, Policy.name] at h

/-- A plain label is read off its heading. -/
theorem heading_injective (hfirst : first.IsPlain) (hsecond : second.IsPlain)
    (h : first.heading = second.heading) : first = second := by
  obtain ⟨hword, hdetail⟩ := word_detail_of_heading h
  have hname {label : Label} {name : String} (hlabel : label.IsPlain) (hmem : name ∈ label.names) :
      IsWordName name := hlabel.1 name hmem
  cases first with
  | literal value =>
    cases second with
    | literal other =>
      have hsame := Literal.describe_injective (hfirst.2 value rfl) (hsecond.2 other rfl)
        ((String.append_right_inj " ").mp hdetail)
      rw [hsame]
    | _ => simp [word] at hword
  | getVariable name =>
    cases second with
    | getVariable other => rw [(String.append_right_inj " ").mp hdetail]
    | _ => simp [word] at hword
  | setVariable name policy declaration =>
    cases second with
    | setVariable other policy' declaration' =>
      have hstops (policy : Policy) (declaration : Bool) :
          Scan.Stops (· != ' ') (" (" ++ manner policy declaration ++ ")").toList := by
        simp [Scan.Stops]
      obtain ⟨rfl, hrest⟩ := (hname hfirst List.mem_cons_self).append_injective
        (hname hsecond List.mem_cons_self) (by decide) (hstops policy declaration)
        (hstops policy' declaration') ((String.append_right_inj " ").mp hdetail)
      obtain ⟨rfl, rfl⟩ := manner_injective
        ((String.append_right_inj " (").mp ((String.append_left_inj ")").mp hrest))
      rfl
    | _ => simp [word] at hword
  | getMember member =>
    cases second with
    | getMember other => rw [(String.append_right_inj " .").mp hdetail]
    | _ => simp [word] at hword
  | setMember member =>
    cases second with
    | setMember other => rw [(String.append_right_inj " .").mp hdetail]
    | _ => simp [word] at hword
  | call arguments =>
    cases second with
    | call other =>
      have hcount := (String.append_right_inj _).mp ((String.append_left_inj _).mp hdetail)
      rw [Text.natText_injective hcount]
    | _ => simp [word] at hword
  | createList elements =>
    cases second with
    | createList other =>
      have hcount := (String.append_right_inj _).mp ((String.append_left_inj _).mp hdetail)
      rw [Text.natText_injective hcount]
    | _ => simp [word] at hword
  | binary operator =>
    cases second with
    | binary other =>
      cases operator <;> cases other <;>
        first | rfl | simp [detail, BinaryOperator.name, BinaryOperator.symbol] at hdetail
    | _ => simp [word] at hword
  | unary operator =>
    cases second with
    | unary other =>
      cases operator <;> cases other <;> first | rfl | simp [detail, UnaryOperator.name] at hdetail
    | _ => simp [word] at hword
  | function name parameters =>
    cases second with
    | function other parameters' =>
      have hstops (parameters : List String) :
          Scan.Stops (· != '(') ("(" ++ ", ".intercalate parameters ++ ")").toList := by
        simp [Scan.Stops]
      obtain ⟨rfl, hrest⟩ := (hname hfirst List.mem_cons_self).append_injective
        (hname hsecond List.mem_cons_self) (by decide) (hstops parameters) (hstops parameters')
        ((String.append_right_inj " ").mp hdetail)
      have hparameters := intercalate_injective
        (fun name hmem => hname hfirst (List.mem_cons_of_mem _ hmem))
        (fun name hmem => hname hsecond (List.mem_cons_of_mem _ hmem))
        ((String.append_right_inj "(").mp ((String.append_left_inj ")").mp hrest))
      rw [hparameters]
    | _ => simp [word] at hword
  | getIndex | setIndex | stackPush | stackPop | giveBack | conditional | block =>
    cases second <;> first | rfl | simp [word] at hword

/-! ## Headings are lines -/

/-- No heading begins with a blank, or as the marks of branches do. -/
theorem exists_heading_cons (label : Label) :
    ∃ c rest, label.heading.toList = c :: rest ∧ c ∉ [' ', 'T', 'E'] := by
  cases label <;> simp [heading, word]

/-- Digits have no line feed. -/
theorem lineFeed_notMem_toDigits (n : Nat) : '\n' ∉ Nat.toDigits 10 n := by
  intro hmem
  obtain ⟨digit, hdigit⟩ := Text.exists_digitChar_of_mem (by decide) hmem
  exact Nat.digitChar_ne '\n' rfl hdigit.symm

/-- Names joined have no line feed if none of them has. -/
theorem lineFeed_notMem_intercalate {parameters : List String}
    (h : ∀ name ∈ parameters, '\n' ∉ name.toList) :
    '\n' ∉ (", ".intercalate parameters).toList := by
  induction parameters with
  | nil => simp
  | cons name rest ih =>
    obtain ⟨hname, hrest⟩ := List.forall_mem_cons.mp h
    rw [intercalate_cons, parameterTail]
    split
    · simpa using hname
    · simp only [String.toList_append, List.mem_append, not_or]
      exact ⟨hname, by decide, ih hrest⟩

/-- An exact literal is described without a line feed. -/
theorem lineFeed_notMem_describe {value : Literal} (h : value.isFloating = false) :
    '\n' ∉ value.describe.toList := by
  have hstring (text : String) : toString text = text := rfl
  have hint (n : Int) : '\n' ∉ n.repr.toList := by
    rw [Int.repr_eq_if]
    split <;> simp [lineFeed_notMem_toDigits]
  cases value with
  | float _ | double _ => cases h
  | bool value => cases value <;> decide
  | int value => simp [Literal.describe, hstring, hint]
  | long value => simp [Literal.describe, hstring, hint]
  | string value => simp [Literal.describe, hstring, Text.lineFeed_notMem_quote]
  | null => decide

/-- A plain heading has no line feed. -/
theorem lineFeed_notMem_heading {label : Label} (h : label.IsPlain) :
    '\n' ∉ label.heading.toList := by
  have hname {name : String} (hmem : name ∈ label.names) : '\n' ∉ name.toList :=
    fun hfeed => (h.1 name hmem).2 _ hfeed (by decide)
  cases label with
  | literal value => simp [heading, word, detail, lineFeed_notMem_describe (h.2 value rfl)]
  | getVariable name => simp [heading, word, detail, hname List.mem_cons_self]
  | setVariable name policy declaration =>
    have hmanner : '\n' ∉ (manner policy declaration).toList := by
      cases policy <;> cases declaration <;> decide
    simp [heading, word, detail, hname List.mem_cons_self, hmanner]
  | getMember member | setMember member =>
    simp [heading, word, detail, hname List.mem_cons_self]
  | call count | createList count => simp [heading, word, detail, lineFeed_notMem_toDigits]
  | binary operator => cases operator <;> decide
  | unary operator => cases operator <;> decide
  | function name parameters =>
    have hparameters := lineFeed_notMem_intercalate fun other (hmem : other ∈ parameters) =>
      hname (List.mem_cons_of_mem name hmem)
    simpa [heading, word, detail, hname List.mem_cons_self] using hparameters
  | _ => decide

end Label

end TreeScript
