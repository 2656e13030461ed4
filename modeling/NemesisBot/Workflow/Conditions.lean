import NemesisBot.Workflow.Context

/-! Templates and the conditions of edges and loops. -/
namespace NemesisBot.Engine
open Strings

/-- Floating point, and the functions that the model does not look into. -/
structure Host where
  /-- the finite values of `f64` -/
  F : Type
  zero : F
  cmp : F → F → Ordering
  /-- `str::parse::<f64>`, when the value is finite -/
  parse : Text → Option F
  /-- `as_f64` of a number literal -/
  asF64 : Text → Option F
  /-- a number as JSON text -/
  print : F → Text
  /-- the `{:?}` form of a string -/
  debug : Text → Text
  /-- the items of a foreach loop, with credential references looked up -/
  resolveItemsList : Json → Fields → Except Text (List Json)

/-- A value inside a template. -/
def replacementText : Json → Text
  | .str s => s
  | v => v.render

/-- Opens a reference. -/
def opening : Text := ['\x7b', '\x7b']

def closing : Text := ['\x7d', '\x7d']

def placeholder (key : Text) : Text := opening ++ key ++ closing

def resolvePromptTemplate (order : Arrangement) (template : Text) (context : Fields) : Text :=
  (order.arrange context).foldl
    (fun out entry => replaceAll (placeholder entry.1) (replacementText entry.2) out) template

/-- The references of a condition, node or variable with an optional field. -/
def placeholderRefsFrom : Nat → Text → List (Text × Option Text)
  | 0, _ => []
  | fuel + 1, rest => match splitOnce opening rest with
    | none => []
    | some (_, after) => match splitOnce closing after with
      | none => []
      | some (inner, rest) =>
        let refs := placeholderRefsFrom fuel rest
        if trim inner = [] then refs
        else match splitOnce ['.'] (trim inner) with
          | none => (trim inner, none) :: refs
          | some (head, field) => (trim head, some (trim field)) :: refs

def placeholderRefs (cond : Text) : List (Text × Option Text) :=
  placeholderRefsFrom cond.length cond

inductive Operator where
  | ge
  | le
  | eq
  | ne
  | gt
  | lt

/-- The operators in the order in which they are looked for. -/
def operators : List Operator := [.ge, .le, .eq, .ne, .gt, .lt]

def Operator.text : Operator → Text
  | .ge => ['>', '=']
  | .le => ['<', '=']
  | .eq => ['=', '=']
  | .ne => ['!', '=']
  | .gt => ['>']
  | .lt => ['<']

def Operator.holds : Operator → Ordering → Bool
  | .ge, o => o != .lt
  | .le, o => o != .gt
  | .eq, o => o == .eq
  | .ne, o => o != .eq
  | .gt, o => o == .gt
  | .lt, o => o == .lt

def toAsciiLower (c : Char) : Char :=
  if 65 ≤ c.toNat && c.toNat ≤ 90 then Char.ofNat (c.toNat + 32) else c

variable (host : Host)

/-- An operand of a comparison. -/
inductive Operand where
  | json (v : Json)
  | float (f : host.F)

variable {host} in
def Operand.asF64 : Operand host → Option host.F
  | .json (.num literal) => host.asF64 literal
  | .json _ => none
  | .float f => some f

variable {host} in
def Operand.text : Operand host → Text
  | .json v => replacementText v
  | .float f => host.print f

def resolveOperand (s : Text) (context : Fields) : Operand host :=
  match trim s with
  | [] => .json .null
  | c :: rest =>
    if (c = '"' ∨ c = '\'') ∧ rest.getLast? = some c then .json (.str rest.dropLast)
    else match context.lookup (c :: rest) with
      | some v => .json v
      | none => match host.parse (c :: rest) with
        | some f => .float f
        | none =>
          if c :: rest = "true".toList then .json (.bool true)
          else if c :: rest = "false".toList then .json (.bool false)
          else if c :: rest = "null".toList then .json .null
          else .json (.str (c :: rest))

/-- Numbers are compared as numbers, everything else as text. -/
def compareValues (left right : Text) (op : Operator) (context : Fields) : Bool :=
  let lv := resolveOperand host left context
  let rv := resolveOperand host right context
  match lv.asF64, rv.asF64 with
  | some a, some b => op.holds (host.cmp a b)
  | _, _ => op.holds (compare lv.text rv.text)

def isTruthyStr (s : Text) : Bool :=
  let t := trim s
  t ≠ [] && t.map toAsciiLower != "false".toList && t != "0".toList && t != "0.0".toList

def isTruthy : Json → Bool
  | .null => false
  | .bool b => b
  | .num literal => (host.asF64 literal).any fun f => host.cmp f host.zero != .eq
  | .str s => s ≠ []
  | .arr items => !items.isEmpty
  | .obj fields => !fields.isEmpty

/-- The first operator that occurs, with the texts around it. -/
def findOperator (expr : Text) : Option (Operator × Text × Text) :=
  operators.findSome? fun op => (splitOnce op.text expr).map fun parts => (op, parts)

/-- An expression without references and without a leading `!`. No letter outside ASCII
has a lower case form inside one of the literals. -/
def evaluateExpr (expr : Text) (context : Fields) : Bool :=
  let lower := expr.map toAsciiLower
  if ["true".toList, "yes".toList, "1".toList].contains lower then true
  else if ["false".toList, "no".toList, "0".toList].contains lower then false
  else match findOperator expr with
    | some (op, left, right) => compareValues host (trim left) (trim right) op context
    | none => match context.lookup expr with
      | some v => isTruthy host v
      | none => isTruthyStr expr

/-- `evaluate_condition` with a bound on its nested calls, `none` when the bound is reached. -/
def evaluateCondition (order : Arrangement) (context : Fields) : Nat → Text → Option Bool
  | 0, _ => none
  | fuel + 1, condition =>
    if trim condition = [] then some false
    else match trim (resolvePromptTemplate order (trim condition) context) with
      | '!' :: rest => (evaluateCondition order context fuel rest).map (!·)
      | resolved => some (evaluateExpr host resolved context)

/-! Without an opening left in the resolved text the evaluation ends. -/

theorem resolve_of_not_opening {order : Arrangement} {s : Text} {context : Fields}
    (h : ¬ opening <:+: s) : resolvePromptTemplate order s context = s := by
  rw [resolvePromptTemplate]
  induction order.arrange context with
  | nil => rfl
  | cons entry rest ih =>
    have hp : ¬ placeholder entry.1 <:+: s := fun hp => h
      (List.IsInfix.trans ⟨[], entry.1 ++ closing, by simp [placeholder]⟩ hp)
    rw [List.foldl_cons, replaceAll_of_not_infix hp, ih]

theorem replaceAll_placeholder_append {key new before after s : Text}
    (hb : ∀ c ∈ before, isWhitespace c = true) (ha : ∀ c ∈ after, isWhitespace c = true) :
    replaceAll (placeholder key) new (before ++ s ++ after) =
      before ++ replaceAll (placeholder key) new s ++ after := by
  have hopen : placeholder key = '\x7b' :: ('\x7b' :: key ++ closing) := by
    simp [placeholder, opening]
  have hclose : placeholder key = opening ++ key ++ ['\x7d'] ++ ['\x7d'] := by
    simp [placeholder, closing]
  have hb' : ∀ c ∈ before, c ≠ '\x7b' := by
    rintro c hc rfl
    exact absurd (hb _ hc) (by decide)
  have ha' : ∀ c ∈ after, c ≠ '\x7d' := by
    rintro c hc rfl
    exact absurd (ha _ hc) (by decide)
  have hleft : replaceAll (placeholder key) new (before ++ s) =
      before ++ replaceAll (placeholder key) new s := by
    rw [hopen]
    exact replaceAll_append_left hb'
  rw [← hleft, hclose]
  exact replaceAll_append_right ha'

theorem resolve_surround (order : Arrangement) {before after : Text} (t : Text)
    (context : Fields) (hb : ∀ c ∈ before, isWhitespace c = true)
    (ha : ∀ c ∈ after, isWhitespace c = true) :
    resolvePromptTemplate order (before ++ t ++ after) context =
      before ++ resolvePromptTemplate order t context ++ after := by
  simp only [resolvePromptTemplate]
  induction order.arrange context generalizing t with
  | nil => rfl
  | cons entry rest ih =>
    simp only [List.foldl_cons]
    rw [replaceAll_placeholder_append hb ha, ih]

/-- White space around a template stays around its resolution. -/
theorem resolve_trim (order : Arrangement) (s : Text) (context : Fields) :
    resolvePromptTemplate order (trim s) context <:+: resolvePromptTemplate order s context := by
  obtain ⟨before, after, he, hb, ha⟩ := trim_split s
  have hs := resolve_surround order (trim s) context hb ha
  rw [← he] at hs
  exact ⟨before, after, hs.symm⟩

theorem evaluateCondition_returns_plain {order : Arrangement} {context : Fields} {fuel : Nat}
    {s : Text} (h : ¬ opening <:+: s) (hf : s.length < fuel) :
    (evaluateCondition host order context fuel s).isSome := by
  induction fuel generalizing s with
  | zero => omega
  | succ fuel ih =>
    have htrim : ¬ opening <:+: trim s := fun ho => h (ho.trans (trim_isInfix s))
    rw [evaluateCondition, resolve_of_not_opening htrim]
    split
    · rfl
    · split
      · rename_i rest he
        have hin : trim (trim s) <:+: s := (trim_isInfix _).trans (trim_isInfix s)
        have hrest : rest <:+: s := by
          rw [he] at hin
          exact (List.suffix_cons '!' rest).isInfix.trans hin
        have hlen : rest.length + 1 ≤ s.length := by
          have := hin.length_le
          rwa [he, List.length_cons] at this
        simpa using ih (fun ho => h (ho.trans hrest)) (by omega)
      · rfl

/-- The evaluation ends when no opening is left in the resolved condition. -/
theorem evaluateCondition_returns {order : Arrangement} {context : Fields} {s : Text}
    (h : ¬ opening <:+: resolvePromptTemplate order s context) :
    (evaluateCondition host order context
      ((resolvePromptTemplate order s context).length + 1) s).isSome := by
  rw [evaluateCondition]
  split
  · rfl
  · split
    · rename_i rest he
      have hin : '!' :: rest <:+: resolvePromptTemplate order s context := by
        rw [← he]
        exact (trim_isInfix _).trans (resolve_trim order s context)
      have hrest : rest <:+: resolvePromptTemplate order s context :=
        (List.suffix_cons '!' rest).isInfix.trans hin
      have hlen := hin.length_le
      rw [List.length_cons] at hlen
      have hsome : (evaluateCondition host order context
          (resolvePromptTemplate order s context).length rest).isSome :=
        evaluateCondition_returns_plain host (fun ho => h (ho.trans hrest)) hlen
      simpa using hsome
    · rfl

example : evaluateCondition host .stored [("a.b".toList, .str "x y".toList)] 3
    "!'\x7b\x7ba.b\x7d\x7d' == 'x y'".toList = some false := by rfl

example : placeholderRefs "\x7b\x7b a.b \x7d\x7d > \x7b\x7bc\x7d\x7d".toList =
    [("a".toList, some "b".toList), ("c".toList, none)] := by decide

end NemesisBot.Engine
