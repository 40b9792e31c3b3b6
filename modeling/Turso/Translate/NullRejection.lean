import Turso.Types.Value
import Turso.Translate.OuterJoinReduction

/-!
# Terms that reject a row of NULLs

What expressions evaluate to (`core/translate/expr`, `core/vdbe/value.rs`, `core/vdbe/execute.rs`), and
what `where_term_rejects_null_row` concludes from their form.  The analysis does not know whether a
NOT surrounds the expression, so it has to show that the expression is NULL, not only that it is not
TRUE.

NULL is a value like any other here, and each operator says what it makes of it.  The built-in ones
are NULL if an operand is, but for `||` between arrays, where NULL stands for the empty array.  The
functions of a custom type, for its operators and for its ENCODE, may make of NULL what they like.
-/

namespace Turso.Translate

/-- The function that a custom type has for an operator (`ResolvedOperator`). -/
structure CustomOperator where
  func : ValueRef → ValueRef → Option ValueRef
  swapArgs : Bool
  negate : Bool
  /-- What a literal among the operands goes through. -/
  encode : ValueRef → Option ValueRef

/-- What `translate_cast_expr` finds under the name of a type. -/
inductive CastTarget where
  | array (encodesElements : Bool) (encode : ValueRef → Option ValueRef)
  /-- A custom type, or a domain with its constraints. -/
  | custom (encodes : List (ValueRef → Option ValueRef)) (accepts : ValueRef → Bool)
  | affinity (convert : ValueRef → Option ValueRef)

/-- What is computed from values that are not NULL, and what the schema says of types.  Where a result
is `none`, the statement fails. -/
structure Machine where
  /-- `Numeric::from` on a text. -/
  ofText : Bytes → Numeric
  checked : ValueOperator → Numeric → Numeric → Option Numeric
  /-- The operators on `NullableInteger`. -/
  integers : ValueOperator → ValueRef → ValueRef → Option Numeric
  bitNot : ValueRef → Numeric
  concat : ValueRef → ValueRef → Option ValueRef
  /-- A comparison with the affinity and the collation of two expressions. -/
  compare : Expr → Operator → Expr → ValueRef → ValueRef → Bool
  /-- IS and IS NOT, which are never NULL. -/
  is : Expr → Operator → Expr → ValueRef → ValueRef → Bool
  isJson : ValueRef → Bool
  extract : ValueOperator → ValueRef → ValueRef → Option ValueRef
  /-- `array_values_from_any`. -/
  elements : ValueRef → Option (List ValueRef)
  arrayConcat : ValueRef → ValueRef → Option ValueRef
  isArray : Expr → Bool
  findCustomTypeOperator : Expr → Operator → Expr → Option CustomOperator
  castTarget : ℕ → CastTarget
  rowValue : List ValueRef → Option ValueRef
  opaqueExpr : OpaqueKind → List ValueRef → Option ValueRef

/-- A row: the columns and the rowids of all tables. -/
structure Cells where
  column : TableInternalId → ℕ → ValueRef
  rowId : TableInternalId → ValueRef

/-- The columns and the rowid of the table are NULL. -/
def Cells.NullOn (cells : Cells) (table : TableInternalId) : Prop :=
  (∀ column, cells.column table column = .null) ∧ cells.rowId table = .null

/-- A literal, also a numeric one under a sign. -/
def Expr.isLiteral : Expr → Bool
  | .opaqueExpr (.other _) [] => true
  | _ => false

/-- `operator_to_str`: the operators that a custom type may have a function for. -/
def Operator.isCustomizable : Operator → Bool
  | .is | .isNot | .and | .or => false
  | .compute operator => operator ∈ [.add, .subtract, .multiply, .divide, .modulus]
  | _ => true

/-- `Value::from_i64`, for a truth value. -/
def ofBool (bool : Bool) : ValueRef := .numeric (.integer (if bool then 1 else 0))

/-- `Numeric::to_bool`. -/
def toBool : Numeric → Bool
  | .integer value => value ≠ 0
  | .float (.finite value _) => value ≠ 0
  | .float _ => true

/-- The operators of `build_between_terms`. -/
def lowerOperator (not : Bool) : Operator := if not then .less else .greaterEquals

def upperOperator (not : Bool) : Operator := if not then .greater else .lessEquals

namespace Machine

/-! ## Operators -/

section
variable (machine : Machine) (lhs rhs : ValueRef)

/-- `Numeric::from_value`. -/
def fromValue : ValueRef → Option Numeric
  | .null => none
  | .numeric value => some value
  | .text bytes | .blob bytes => some (machine.ofText bytes)

def truth (value : ValueRef) : Option Bool := (machine.fromValue value).map toBool

/-- `exec_and`. -/
def execAnd : ValueRef :=
  match machine.truth lhs, machine.truth rhs with
  | some false, _ | _, some false => ofBool false
  | none, _ | _, none => .null
  | _, _ => ofBool true

/-- `exec_or`. -/
def execOr : ValueRef :=
  match machine.truth lhs, machine.truth rhs with
  | some true, _ | _, some true => ofBool true
  | none, _ | _, none => .null
  | _, _ => ofBool false

/-- `exec_boolean_not`. -/
def execBooleanNot (value : ValueRef) : ValueRef :=
  (machine.truth value).elim .null fun truth => ofBool !truth

/-- `exec_add` and the like. -/
def execArithmetic (operator : ValueOperator) : ValueRef :=
  match machine.fromValue lhs, machine.fromValue rhs with
  | some lhs, some rhs => (machine.checked operator lhs rhs).elim .null .numeric
  | _, _ => .null

/-- `exec_bit_and` and the like. -/
def execIntegers (operator : ValueOperator) : ValueRef :=
  if lhs = .null ∨ rhs = .null then .null
  else (machine.integers operator lhs rhs).elim .null .numeric

/-- `exec_concat`: NULL has no text. -/
def execConcat : Option ValueRef :=
  if lhs = .null ∨ rhs = .null then some .null else machine.concat lhs rhs

/-- `op_array_concat`. -/
def opArrayConcat : Option ValueRef :=
  match lhs, rhs with
  | .null, rhs => some rhs
  | lhs, .null => some lhs
  | lhs, rhs => machine.arrayConcat lhs rhs

/-- `json_arrow_extract` and `json_arrow_shift_extract`. -/
def jsonArrowExtract (operator : ValueOperator) : Option ValueRef :=
  if lhs = .null then some .null
  else if machine.isJson lhs then
    if rhs = .null then some .null else machine.extract operator lhs rhs
  else none

/-- `exec_array_contains_all` and `exec_array_overlap`. -/
def execArrayTest (operator : ValueOperator) : ValueRef :=
  if lhs = .null ∨ rhs = .null then .null
  else match machine.elements lhs, machine.elements rhs with
    | some left, some right =>
      let found value := left.any fun other => other.cmp value = .eq
      ofBool (if operator = .arrayContains then right.all found else right.any found)
    | _, _ => .null

def execCompute (arrays : Bool) (operator : ValueOperator) : Option ValueRef :=
  match operator with
  | .add | .subtract | .multiply | .divide => some (machine.execArithmetic lhs rhs operator)
  | .modulus | .bitwiseAnd | .bitwiseOr | .leftShift | .rightShift =>
    some (machine.execIntegers lhs rhs operator)
  | .concat => if arrays then machine.opArrayConcat lhs rhs else machine.execConcat lhs rhs
  | .arrowRight | .arrowRightShift => machine.jsonArrowExtract lhs rhs operator
  | .arrayContains | .arrayOverlap => some (machine.execArrayTest lhs rhs operator)

variable (left : Expr) (operator : Operator) (right : Expr)

/-- A comparison instruction does not jump on NULL. -/
def jumps : Bool :=
  lhs ≠ .null && rhs ≠ .null && machine.compare left operator right lhs rhs

/-- `wrap_eval_jump_expr_zero_or_null`. -/
def execCompare : ValueRef :=
  if machine.jumps lhs rhs left operator right then ofBool true
  else if lhs = .null ∨ rhs = .null then .null
  else ofBool false

/-- `emit_custom_type_operator`. -/
def execCustom (custom : CustomOperator) : Option ValueRef := do
  let lhs ← argument left lhs
  let rhs ← argument right rhs
  let result ← call lhs rhs
  some (if custom.negate then machine.execBooleanNot result else result)
where
  argument (expr : Expr) (value : ValueRef) : Option ValueRef :=
    if expr.isLiteral then custom.encode value else some value
  call (lhs rhs : ValueRef) : Option ValueRef :=
    if custom.swapArgs then custom.func rhs lhs else custom.func lhs rhs

/-- `find_custom_type_operator`. -/
def customOperator : Option CustomOperator :=
  if operator.isCustomizable then machine.findCustomTypeOperator left operator right else none

/-- `translate_binary_expr`. -/
def execBinary : Option ValueRef :=
  match machine.customOperator left operator right with
  | some custom => machine.execCustom lhs rhs left right custom
  | none =>
    match operator with
    | .and => some (machine.execAnd lhs rhs)
    | .or => some (machine.execOr lhs rhs)
    | .is | .isNot => some (ofBool (machine.is left operator right lhs rhs))
    | .compute operator =>
      machine.execCompute lhs rhs (machine.isArray left || machine.isArray right) operator
    | _ => some (machine.execCompare lhs rhs left operator right)

/-- `translate_in_list_expr`. -/
def execInList (not : Bool) (exprs : List Expr) (values : List ValueRef) : ValueRef :=
  if (exprs.zip values).any fun item => machine.jumps lhs item.2 left .equals item.1 then ofBool !not
  else if lhs = .null ∨ .null ∈ values then .null
  else ofBool not

/-- `translate_unary_expr`. -/
def execUnary (operator : UnaryOperator) (value : ValueRef) : ValueRef :=
  match operator with
  | .positive => value
  | .negative => machine.execArithmetic (ofBool false) value .subtract
  | .bitwiseNot => if value = .null then .null else .numeric (machine.bitNot value)
  | .not => machine.execBooleanNot value

/-- `translate_cast_expr`. -/
def execCast (type : ℕ) (value : ValueRef) : Option ValueRef :=
  match machine.castTarget type with
  | .array encodesElements encode =>
    -- the loop over the elements takes an array that is NULL for one with too many
    if value = .null then if encodesElements then none else some .null else encode value
  | .custom encodes accepts => (encodes.foldl Option.bind (some value)).filter accepts
  | .affinity convert => if value = .null then some .null else convert value

end

section
variable (machine : Machine) (cells : Cells)

mutual

/-- The value of an expression on a row. -/
def eval : Expr → Option ValueRef
  | .column table column => some (cells.column table column)
  | .rowId table => some (cells.rowId table)
  | .binary lhs operator rhs => do
    machine.execBinary (← eval lhs) (← eval rhs) lhs operator rhs
  | .inList lhs not rhs => do
    some (machine.execInList (← eval lhs) lhs not rhs (← evalAll rhs))
  | .between lhs not start finish => do
    let value ← eval lhs
    let lower ← machine.execBinary value (← eval start) lhs (lowerOperator not) start
    let upper ← machine.execBinary value (← eval finish) lhs (upperOperator not) finish
    some (if not then machine.execOr lower upper else machine.execAnd lower upper)
  | .unary operator inner => do some (machine.execUnary operator (← eval inner))
  | .cast inner type => do machine.execCast type (← eval inner)
  | .collate inner _ | .parenthesized [inner] => eval inner
  | .parenthesized exprs => do machine.rowValue (← evalAll exprs)
  | .opaqueExpr kind args => do machine.opaqueExpr kind (← evalAll args)

def evalAll : List Expr → Option (List ValueRef)
  | [] => some []
  | expr :: exprs => do some ((← eval expr) :: (← evalAll exprs))

end

end

/-! ## NULL in, NULL out -/

/-- The result is NULL, if there is one. -/
def Nulls (result : Option ValueRef) : Prop := ∀ value ∈ result, value = .null

section
variable (machine : Machine)

/-- A function of a custom type is NULL on NULL, and arrays are not concatenated. -/
def StrictOperator (left : Expr) (operator : Operator) (right : Expr) : Prop :=
  match machine.customOperator left operator right with
  | some custom => ∀ lhs rhs, lhs = .null ∨ rhs = .null → Nulls (custom.func lhs rhs)
  | none => operator = .compute .concat → machine.isArray left = false ∧ machine.isArray right = false

/-- The ENCODE expressions of a CAST are NULL on NULL. -/
def StrictCast (type : ℕ) : Prop :=
  match machine.castTarget type with
  | .custom encodes _ => ∀ encode ∈ encodes, Nulls (encode .null)
  | _ => True

/-- The operators and the casts of a term are NULL on NULL. -/
def Strict : Expr → Prop
  | .binary lhs operator rhs => Strict lhs ∧ Strict rhs ∧ machine.StrictOperator lhs operator rhs
  | .between lhs not start finish => Strict lhs ∧ Strict start ∧ Strict finish ∧
    machine.StrictOperator lhs (lowerOperator not) start ∧
    machine.StrictOperator lhs (upperOperator not) finish
  | .cast inner type => Strict inner ∧ machine.StrictCast type
  | .inList inner _ _ | .unary _ inner | .collate inner _ | .parenthesized [inner] => Strict inner
  | _ => True

end

theorem nulls_null : Nulls (some .null) := by
  rintro value ⟨⟩
  rfl

theorem nulls_bind {α : Type} {first : Option α} {next : α → Option ValueRef}
    (h : ∀ value ∈ first, Nulls (next value)) : Nulls (first.bind next) := by
  intro result hresult
  obtain ⟨value, hvalue, hresult⟩ := Option.bind_eq_some_iff.mp hresult
  exact h value hvalue result hresult

variable {machine : Machine}

section
variable {lhs rhs : ValueRef} {left right : Expr}

section
variable (h : lhs = .null ∨ rhs = .null)
include h

theorem execArithmetic_null (operator : ValueOperator) :
    machine.execArithmetic lhs rhs operator = .null := by
  rcases h with rfl | rfl
  · rfl
  · cases machine.fromValue lhs <;> simp [execArithmetic, fromValue]

theorem jsonArrowExtract_null (operator : ValueOperator) :
    Nulls (machine.jsonArrowExtract lhs rhs operator) := by
  simp only [Nulls, jsonArrowExtract]
  grind

theorem execCompute_null {arrays : Bool} (operator : ValueOperator)
    (harrays : operator = .concat → arrays = false) :
    Nulls (machine.execCompute lhs rhs arrays operator) := by
  cases operator with
  | add | subtract | multiply | divide =>
    rw [execCompute, execArithmetic_null h]
    exact nulls_null
  | modulus | bitwiseAnd | bitwiseOr | leftShift | rightShift =>
    rw [execCompute, execIntegers, if_pos h]
    exact nulls_null
  | concat =>
    rw [execCompute, harrays rfl, if_neg Bool.false_ne_true, execConcat, if_pos h]
    exact nulls_null
  | arrowRight | arrowRightShift => exact jsonArrowExtract_null h _
  | arrayContains | arrayOverlap =>
    rw [execCompute, execArrayTest, if_pos h]
    exact nulls_null

theorem jumps_null (operator : Operator) : machine.jumps lhs rhs left operator right = false := by
  rcases h with rfl | rfl <;> simp [jumps]

end

variable (h : lhs = .null ∧ left.isLiteral = false ∨ rhs = .null ∧ right.isLiteral = false)
include h

theorem execCustom_null {custom : CustomOperator}
    (hstrict : ∀ lhs rhs, lhs = .null ∨ rhs = .null → Nulls (custom.func lhs rhs)) :
    Nulls (machine.execCustom lhs rhs left right custom) := by
  refine nulls_bind fun l hl => nulls_bind fun r hr => nulls_bind fun result hresult => ?_
  -- only a literal is encoded
  have hargs : l = .null ∨ r = .null := by
    rcases h with ⟨rfl, hliteral⟩ | ⟨rfl, hliteral⟩
    · rw [execCustom.argument, hliteral] at hl
      exact .inl (Option.some.inj hl).symm
    · rw [execCustom.argument, hliteral] at hr
      exact .inr (Option.some.inj hr).symm
  obtain rfl : result = .null := by
    unfold execCustom.call at hresult
    split_ifs at hresult
    · exact hstrict r l hargs.symm result hresult
    · exact hstrict l r hargs result hresult
  split_ifs <;> exact nulls_null

theorem execBinary_null {operator : Operator} (hoperator : operator ∉ [.is, .isNot, .and, .or])
    (hstrict : machine.StrictOperator left operator right) :
    Nulls (machine.execBinary lhs rhs left operator right) := by
  have hnull : lhs = .null ∨ rhs = .null := h.imp And.left And.left
  unfold execBinary
  unfold StrictOperator at hstrict
  cases hcustom : machine.customOperator left operator right with
  | some custom =>
    rw [hcustom] at hstrict
    exact execCustom_null h hstrict
  | none =>
    rw [hcustom] at hstrict
    cases operator with
    | is | isNot | and | or => simp at hoperator
    | compute operator =>
      refine execCompute_null hnull operator fun hconcat => ?_
      simpa using hstrict (congrArg Operator.compute hconcat)
    | _ =>
      simp only [execCompare, jumps_null hnull, hnull, if_true, Bool.false_eq_true, if_false]
      exact nulls_null

end

theorem execUnary_null (operator : UnaryOperator) : machine.execUnary operator .null = .null := by
  cases operator with
  | negative =>
    rw [execUnary]
    exact execArithmetic_null (.inr rfl) _
  | _ => rfl

theorem nulls_foldl_bind {encodes : List (ValueRef → Option ValueRef)} {result : Option ValueRef}
    (hencodes : ∀ encode ∈ encodes, Nulls (encode .null)) (hresult : Nulls result) :
    Nulls (encodes.foldl Option.bind result) := by
  induction encodes generalizing result with
  | nil => exact hresult
  | cons encode rest ih =>
    refine ih (fun other hm => hencodes other (List.mem_cons_of_mem _ hm)) (nulls_bind ?_)
    intro value hvalue
    exact hresult value hvalue ▸ hencodes encode List.mem_cons_self

theorem execCast_null {type : ℕ} (hstrict : machine.StrictCast type) :
    Nulls (machine.execCast type .null) := by
  unfold execCast
  unfold StrictCast at hstrict
  cases htarget : machine.castTarget type with
  | array encodesElements encode => cases encodesElements <;> simp [Nulls]
  | custom encodes accepts =>
    rw [htarget] at hstrict
    intro value hvalue
    exact nulls_foldl_bind hstrict nulls_null value (Option.mem_filter_iff.mp hvalue).1
  | affinity convert => exact nulls_null

/-! ## The analysis -/

variable {isVirtual : TableInternalId → Bool} {tableId : TableInternalId} {expr : Expr}

theorem isLiteral_of_rejectsNullRow (h : whereTermRejectsNullRow isVirtual tableId expr = true) :
    expr.isLiteral = false := by
  cases expr with
  | opaqueExpr => cases h
  | _ => rfl

variable {cells : Cells}

/-- Arrays are concatenated, operators are functions of a custom type, and so are casts. -/
def custom : Machine where
  ofText _ := .integer 0
  checked _ _ _ := none
  integers _ _ _ := none
  bitNot _ := .integer 0
  concat _ _ := none
  compare _ _ _ lhs rhs := lhs = rhs
  is _ _ _ lhs rhs := lhs = rhs
  isJson _ := false
  extract _ _ _ := none
  elements _ := none
  arrayConcat _ _ := none
  isArray _ := true
  findCustomTypeOperator _ _ _ := some ⟨fun _ rhs => some rhs, false, false, some⟩
  castTarget _ := .custom [fun _ => some (ofBool true)] fun _ => true
  rowValue _ := none
  opaqueExpr _ _ := none

/-- Table 0 is filled with NULLs; the columns of the others are 1. -/
def firstIsNull : Cells where
  column table _ := if table = 0 then .null else ofBool true
  rowId table := if table = 0 then .null else ofBool true

end Machine

end Turso.Translate
