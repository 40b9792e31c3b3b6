import Mathlib.Data.List.Basic
import Mathlib.Tactic.Ring

/-!
# JSON paths

`json_path` (`core/json/path.rs`) reads a path character by character; quoted keys are read by loops
of their own that share its iterator.  A text is a list of characters, and a position in the path is
what is left of it from there on.

A path that is written out from its steps is read back as these steps (`jsonPath_render`).  The number
of an index is collected with saturation and then cut to 32 bits, as the source's tests expect, so
that only numbers below `2 ^ 31` come back as they are.
-/

namespace Turso.Json

open List

/-! ## The source -/

/-- `PPState`. -/
inductive PPState where
  | start
  | afterRoot
  | inKey
  | inArrayIndex
  | expectDotOrBracket
  deriving DecidableEq

/-- `ArrayIndexState`. -/
inductive ArrayIndexState where
  | start
  | afterHash
  | collectingNumbers
  | collectingNegativeNumbers
  | isMax
  deriving DecidableEq

/-- `PathElement`; an index is an `i32`. -/
inductive PathElement where
  | root
  | key (key : List Char) (raw : Bool)
  | arrayLocator (index : Option ℤ)
  | bracketQuotedKey (key : List Char)
  deriving DecidableEq

section
variable (path : List Char)

/-- `quote_path`. -/
def quotePath : List Char :=
  (path.takeWhile (· ≠ '\x00')).flatMap fun ch => if ch = '\'' then ['\'', '\''] else [ch]

/-- What is reported of a path that cannot be read. -/
def badPath : String :=
  "bad JSON path: '" ++ String.ofList (quotePath path) ++ "'"

def i128Max : ℤ := 2 ^ 127 - 1

def i128Min : ℤ := -2 ^ 127

/-- The result of a saturating operation on `i128`. -/
def saturate (value : ℤ) : ℤ :=
  max i128Min (min value i128Max)

/-- `collect_num`. -/
def collectNum (current adding : ℤ) (negative : Bool) : ℤ × Bool :=
  let result := if negative then saturate (saturate (current * 10) - adding)
    else saturate (saturate (current * 10) + adding)
  (result, result = i128Max ∨ result = i128Min)

/-- `as i32`. -/
def asI32 (value : ℤ) : ℤ :=
  value.bmod (2 ^ 32)

/-- The local variables of `json_path`. -/
structure Parser where
  parserState : PPState
  indexState : ArrayIndexState
  keyStart : List Char
  indexBuffer : ℤ
  components : List PathElement

/-- The text from one position of the path to another. -/
def between (start stop : List Char) : List Char :=
  start.take (start.length - stop.length)

/-- The value of a decimal digit. -/
def toDigit (ch : Char) : ℤ :=
  (ch.toNat - '0'.toNat : ℕ)

/-- The loops of `handle_quoted_key` and `handle_bracket_quoted_key`: the closing quote, and what
follows it. -/
def closingQuote (quote : Char) : List Char → Option (List Char)
  | [] => none
  | ch :: rest =>
    if ch = '\\' then
      match rest with
      | [] => none
      | _ :: rest => closingQuote quote rest
    else if ch = quote then some (ch :: rest)
    else closingQuote quote rest

section
variable (parser : Parser)

section
variable (ch : Char)

/-- `handle_start`. -/
def handleStart : Except String Parser :=
  if ch = '$' then
    .ok { parser with components := parser.components ++ [.root], parserState := .afterRoot }
  else .error (badPath path)

/-- `handle_expect_dot_or_bracket`. -/
def handleExpectDotOrBracket (rest : List Char) : Except String Parser :=
  if ch = '.' then .ok { parser with parserState := .inKey, keyStart := rest }
  else if ch = '[' then
    .ok { parser with indexState := .start, parserState := .inArrayIndex, indexBuffer := 0 }
  else .error (badPath path)

/-- `handle_after_root`, which does the same. -/
def handleAfterRoot : List Char → Parser → Char → List Char → Except String Parser :=
  handleExpectDotOrBracket

/-- `handle_quoted_key`; a quote that is not closed takes all of the path. -/
def handleQuotedKey (rest : List Char) : Parser × List Char :=
  match closingQuote '"' rest with
  | none => (parser, [])
  | some stop =>
    ({ parser with
      components := parser.components ++ [.key (between rest stop) true]
      parserState := .expectDotOrBracket }, stop.tail)

/-- `handle_in_key`. -/
def handleInKey (rest : List Char) : Except String (Parser × List Char) :=
  if ch = '.' ∨ ch = '[' then
    let key := between parser.keyStart (ch :: rest)
    if key ≠ [] then
      let parser := if ch = '[' then
          { parser with indexState := .start, parserState := .inArrayIndex, indexBuffer := 0 }
        else { parser with keyStart := rest }
      .ok ({ parser with components := parser.components ++ [.key key false] }, rest)
    else .error (badPath path)
  else if ch = '"' then .ok (handleQuotedKey parser rest)
  else .ok (parser, rest)

/-- `handle_bracket_quoted_key`. -/
def handleBracketQuotedKey (quote : Char) (rest : List Char) : Except String (Parser × List Char) :=
  match closingQuote quote rest with
  | none => .error (badPath path)
  | some stop =>
    match stop.tail with
    | ']' :: after =>
      .ok ({ parser with
        components := parser.components ++ [.bracketQuotedKey (between rest stop)]
        parserState := .expectDotOrBracket }, after)
    | _ => .error (badPath path)

/-- `handle_negative_index`. -/
def handleNegativeIndex : List Char → Except String (Parser × List Char)
  | next :: rest =>
    if next.isDigit then
      .ok ({ parser with
        indexBuffer := -toDigit next, indexState := .collectingNegativeNumbers }, rest)
    else .error (badPath path)
  | [] => .error (badPath path)

/-- The end of an index. -/
def Parser.locate (index : Option ℤ) : Parser :=
  { parser with
    parserState := .expectDotOrBracket
    components := parser.components ++ [.arrayLocator index] }

/-- `handle_array_index`. -/
def handleArrayIndex (rest : List Char) : Except String (Parser × List Char) :=
  match parser.indexState with
  | .start =>
    if ch = '#' then .ok ({ parser with indexState := .afterHash }, rest)
    else if ch.isDigit then
      .ok ({ parser with indexBuffer := toDigit ch, indexState := .collectingNumbers }, rest)
    else if ch = '"' ∨ ch = '\'' then handleBracketQuotedKey path parser ch rest
    else .error (badPath path)
  | .afterHash =>
    if ch = '-' then handleNegativeIndex path parser rest
    else if ch = ']' then .ok (parser.locate none, rest)
    else .error (badPath path)
  | .collectingNumbers | .collectingNegativeNumbers =>
    let negative : Bool := parser.indexState = .collectingNegativeNumbers
    if ch.isDigit then
      let (number, isMax) := collectNum parser.indexBuffer (toDigit ch) negative
      .ok ({ parser with
        indexState := if isMax then .isMax else parser.indexState, indexBuffer := number }, rest)
    else if ch = ']' then
      if negative ∧ parser.indexBuffer = 0 then .ok (parser.locate none, rest)
      else .ok (parser.locate (some (asI32 parser.indexBuffer)), rest)
    else .error (badPath path)
  | .isMax =>
    if ch.isDigit then .ok (parser, rest)
    else if ch = ']' then .ok (parser.locate (some (asI32 parser.indexBuffer)), rest)
    else .error (badPath path)

/-- One turn of the loop of `json_path`. -/
def handle (rest : List Char) : Except String (Parser × List Char) :=
  match parser.parserState with
  | .start => (handleStart path parser ch).map fun parser => (parser, rest)
  | .afterRoot => (handleAfterRoot path parser ch rest).map fun parser => (parser, rest)
  | .expectDotOrBracket =>
    (handleExpectDotOrBracket path parser ch rest).map fun parser => (parser, rest)
  | .inKey => handleInKey path parser ch rest
  | .inArrayIndex => handleArrayIndex path parser ch rest

end

end

end

/-- The loop of `json_path`; a turn takes one character or more, so that the length of the path is
enough `fuel`. -/
def loop (path : List Char) : ℕ → Parser → List Char → Except String Parser
  | fuel + 1, parser, ch :: rest => do
    let (parser, rest) ← handle path parser ch rest
    loop path fuel parser rest
  | _, parser, _ => .ok parser

/-- `finalize_path`. -/
def finalizePath (path : List Char) (parser : Parser) : Except String (List PathElement) :=
  match parser.parserState with
  | .inArrayIndex => .error (badPath path)
  | .inKey =>
    let key := parser.keyStart
    if key = [] then .error (badPath path)
    else if key.head? = some '"' ∧ key.getLast? ≠ some '"' ∧ key.length > 1 ∨
        key.head? = some '"' ∧ key.getLast? = some '"' ∧ key.length = 1 then
      .error (badPath path)
    else .ok (parser.components ++ [.key key false])
  | _ => .ok parser.components

/-- `json_path`. -/
def jsonPath (path : List Char) : Except String (List PathElement) := do
  if path = [] then .error (badPath path)
  else
    let parser ← loop path path.length ⟨.start, .start, path, 0, []⟩ path
    finalizePath path parser

/-! ## Steps -/

/-- A text in which the quote stands only after a backslash, and no backslash is the last. -/
def Escaped (quote : Char) : List Char → Prop
  | [] => True
  | ch :: rest =>
    if ch = '\\' then
      match rest with
      | [] => False
      | _ :: rest => Escaped quote rest
    else ch ≠ quote ∧ Escaped quote rest

/-- A decimal number, with any number of leading zeros. -/
structure Decimal where
  first : Fin 10
  rest : List (Fin 10)

variable (digit : Fin 10)

/-- A digit as a character. -/
def digitChar : Char :=
  Char.ofNat ('0'.toNat + digit)

/-- The number of which digits follow. -/
def appendDigits (value : ℕ) (digits : List (Fin 10)) : ℕ :=
  digits.foldl (fun value digit => value * 10 + digit) value

variable (number : Decimal)

def Decimal.value : ℕ :=
  appendDigits number.first number.rest

def Decimal.text : List Char :=
  digitChar number.first :: number.rest.map digitChar

/-- A step of a path. -/
inductive PathStep where
  | key (name : List Char) (nonempty : name ≠ [])
      (plain : ∀ ch ∈ name, ch ≠ '.' ∧ ch ≠ '[' ∧ ch ≠ '"')
  | quotedKey (content : List Char) (escaped : Escaped '"' content)
  | bracketQuotedKey (quote : Char) (isQuote : quote = '"' ∨ quote = '\'') (content : List Char)
      (escaped : Escaped quote content)
  | index (number : Decimal)
  | fromEnd (number : Decimal)
  | last

/-- How a step is written. -/
def PathStep.text : PathStep → List Char
  | key name _ _ => '.' :: name
  | quotedKey content _ => '.' :: '"' :: content ++ ['"']
  | bracketQuotedKey quote _ content _ => '[' :: quote :: content ++ [quote, ']']
  | index number => '[' :: number.text ++ [']']
  | fromEnd number => '[' :: '#' :: '-' :: number.text ++ [']']
  | last => ['[', '#', ']']

/-- How a path is written. -/
def render (steps : List PathStep) : List Char :=
  '$' :: steps.flatMap PathStep.text

/-- The element for a step, with the index `locate` makes of a number. -/
def PathStep.element (locate : ℤ → ℤ) : PathStep → PathElement
  | key name _ _ => .key name false
  | quotedKey content _ => .key content true
  | bracketQuotedKey _ _ content _ => .bracketQuotedKey content
  | index number => .arrayLocator (some (locate number.value))
  | fromEnd number =>
    .arrayLocator (if number.value = 0 then none else some (locate (-number.value)))
  | last => .arrayLocator none

/-! ## Runs of the loop -/

variable {path rest middle after : List Char} {parser next last : Parser}

/-- The loop comes from one position to another. -/
def Reads (path : List Char) (parser : Parser) (start : List Char) (next : Parser)
    (stop : List Char) : Prop :=
  ∀ fuel, start.length ≤ fuel → ∃ left, stop.length ≤ left ∧
    loop path fuel parser start = loop path left next stop

theorem Reads.trans (ha : Reads path parser rest next middle)
    (hb : Reads path next middle last after) : Reads path parser rest last after := by
  intro fuel hfuel
  obtain ⟨left, hleft, hloop⟩ := ha fuel hfuel
  obtain ⟨left', hleft', hloop'⟩ := hb left hleft
  exact ⟨left', hleft', hloop.trans hloop'⟩

theorem reads_of_handle {ch : Char} (hhandle : handle path parser ch rest = .ok (next, after))
    (hle : after.length ≤ rest.length) : Reads path parser (ch :: rest) next after := by
  intro fuel hfuel
  obtain ⟨fuel, rfl⟩ : ∃ n, fuel = n + 1 := Nat.exists_eq_add_of_lt (Nat.zero_lt_of_lt hfuel) |>.imp
    fun n h => by omega
  refine ⟨fuel, hle.trans (Nat.le_of_succ_le_succ hfuel), ?_⟩
  rw [loop, hhandle]
  rfl

theorem loop_of_reads (h : Reads path parser rest next []) :
    loop path rest.length parser rest = .ok next := by
  obtain ⟨left, -, hloop⟩ := h _ le_rfl
  rw [hloop]
  cases left <;> rfl

/-! ## Quoted keys -/

theorem between_append (first second : List Char) : between (first ++ second) second = first := by
  simp [between]

theorem closingQuote_append {quote : Char} {content : List Char} (h : Escaped quote content)
    (hquote : quote ≠ '\\') :
    closingQuote quote (content ++ quote :: rest) = some (quote :: rest) := by
  induction content using Escaped.induct with
  | case1 =>
    unfold closingQuote
    simp [hquote]
  | case2 => simp [Escaped] at h
  | case3 ch rest ih =>
    unfold Escaped at h
    simpa [closingQuote] using ih h
  | case4 ch rest hch ih =>
    unfold Escaped at h
    rw [if_neg hch] at h
    unfold closingQuote
    simpa [hch, h.1] using ih h.2

/-! ## Numbers -/

/-- A number with its sign. -/
def signed (negative : Bool) (value : ℕ) : ℤ :=
  if negative then -value else value

theorem signed_true (value : ℕ) : signed true value = -value := rfl

theorem signed_false (value : ℕ) : signed false value = value := rfl

/-- A number that no further digit changes. -/
abbrev AtLimit (value : ℤ) : Prop :=
  value = i128Max ∨ value = i128Min

theorem saturate_signed_of_atLimit {negative : Bool} {value : ℕ} (digit : ℕ)
    (h : AtLimit (saturate (signed negative value))) :
    saturate (signed negative (value * 10 + digit)) = saturate (signed negative value) := by
  cases negative <;>
    simp only [AtLimit, signed_true, signed_false, saturate, i128Max, i128Min] at h ⊢ <;> omega

theorem collectNum_saturate {negative : Bool} {value digit : ℕ}
    (h : ¬ AtLimit (saturate (signed negative value))) :
    collectNum (saturate (signed negative value)) digit negative =
      (saturate (signed negative (value * 10 + digit)),
        decide (AtLimit (saturate (signed negative (value * 10 + digit))))) := by
  cases negative with
  | false =>
    have hres : saturate (saturate (saturate (signed false value) * 10) + digit) =
        saturate (signed false (value * 10 + digit)) := by
      simp only [AtLimit, signed_false, saturate, i128Max, i128Min] at h ⊢
      omega
    simp only [collectNum, Bool.false_eq_true, if_false, hres]
  | true =>
    have hres : saturate (saturate (saturate (signed true value) * 10) - digit) =
        saturate (signed true (value * 10 + digit)) := by
      simp only [AtLimit, signed_true, saturate, i128Max, i128Min] at h ⊢
      omega
    simp only [collectNum, if_true, hres]

/-- The parser after the digits of a number. -/
def collected (parser : Parser) (negative : Bool) (value : ℕ) : Parser :=
  { parser with
    indexState := if AtLimit (saturate (signed negative value)) then .isMax
      else if negative then .collectingNegativeNumbers else .collectingNumbers
    indexBuffer := saturate (signed negative value) }

theorem isDigit_digitChar : (digitChar digit).isDigit = true := by
  revert digit
  decide

theorem toDigit_digitChar : toDigit (digitChar digit) = digit := by
  revert digit
  decide

section
variable (hstate : parser.parserState = .inArrayIndex) (negative : Bool)
include hstate

theorem handle_digit (v : ℕ) (digit : Fin 10) :
    handle path (collected parser negative v) (digitChar digit) rest =
      .ok (collected parser negative (v * 10 + digit), rest) := by
  by_cases hlimit : AtLimit (saturate (signed negative v))
  · simp [handle, handleArrayIndex, collected, hstate, hlimit, isDigit_digitChar,
      saturate_signed_of_atLimit digit hlimit]
  · have hcollect : collectNum _ digit _ = _ := collectNum_saturate hlimit
    cases negative <;>
      simp [handle, handleArrayIndex, collected, hstate, hlimit, isDigit_digitChar,
        toDigit_digitChar, hcollect]

theorem reads_digits (digits : List (Fin 10)) (v : ℕ) :
    Reads path (collected parser negative v) (digits.map digitChar ++ rest)
      (collected parser negative (appendDigits v digits)) rest := by
  induction digits generalizing v with
  | nil => exact fun fuel hfuel => ⟨fuel, hfuel, rfl⟩
  | cons digit digits ih =>
    exact (reads_of_handle (handle_digit hstate negative v digit) le_rfl).trans (ih _)

theorem handle_close (value : ℕ) : handle path (collected parser negative value) ']' rest =
      .ok ((collected parser negative value).locate (if negative ∧ value = 0 then none
        else some (asI32 (saturate (signed negative value)))), rest) := by
  have hzero : saturate (signed true value) = 0 ↔ value = 0 := by
    simp only [signed_true, saturate, i128Max, i128Min]
    omega
  by_cases hlimit : AtLimit (saturate (signed negative value))
  · have hvalue : value ≠ 0 := by
      rintro rfl
      cases negative <;> exact absurd hlimit (by decide)
    simp [handle, handleArrayIndex, collected, hstate, hlimit, hvalue]
  · cases negative with
    | false => simp [handle, handleArrayIndex, collected, hstate, hlimit]
    | true =>
      simp only [handle, handleArrayIndex, collected, hstate, hlimit, hzero]
      split_ifs <;> simp_all

end

/-! ## Reading a step -/

/-- The parser between two steps: an unquoted key is still to be closed. -/
inductive Ready (done : List PathElement) (rest : List Char) (parser : Parser) : Prop
  | closed (hstate : parser.parserState = .afterRoot ∨ parser.parserState = .expectDotOrBracket)
      (hcomponents : parser.components = done)
  | inKey {name : List Char} (hstate : parser.parserState = .inKey)
      (hkey : parser.keyStart = name ++ rest) (hname : name ≠ []) (hquote : name.head? ≠ some '"')
      (hcomponents : parser.components ++ [.key name false] = done)

variable {done : List PathElement}

theorem Ready.dot (h : Ready done ('.' :: rest) parser) : ∃ next,
    handle path parser '.' rest = .ok (next, rest) ∧ next.parserState = .inKey ∧
      next.keyStart = rest ∧ next.components = done := by
  cases h with
  | closed hstate hcomponents =>
    refine ⟨{ parser with parserState := .inKey, keyStart := rest }, ?_, rfl, rfl, hcomponents⟩
    rcases hstate with hstate | hstate <;>
      simp [handle, handleAfterRoot, handleExpectDotOrBracket, hstate, Except.map]
  | @inKey name hstate hk hname hquote hcomponents =>
    refine ⟨{ parser with keyStart := rest, components := done }, ?_, hstate, rfl, rfl⟩
    simp [handle, handleInKey, hstate, hk, between_append, hname, ← hcomponents]

theorem Ready.bracket (h : Ready done ('[' :: rest) parser) : ∃ next,
    handle path parser '[' rest = .ok (next, rest) ∧ next.parserState = .inArrayIndex ∧
      next.indexState = .start ∧ next.components = done := by
  cases h with
  | closed hstate hcomponents =>
    refine ⟨{ parser with indexState := .start, parserState := .inArrayIndex, indexBuffer := 0 }, ?_,
      rfl, rfl, hcomponents⟩
    rcases hstate with hstate | hstate <;>
      simp [handle, handleAfterRoot, handleExpectDotOrBracket, hstate, Except.map]
  | @inKey name hstate hk hname hquote hcomponents =>
    refine ⟨{ parser with
      indexState := .start, parserState := .inArrayIndex, indexBuffer := 0, components := done }, ?_,
      rfl, rfl, rfl⟩
    simp [handle, handleInKey, hstate, hk, between_append, hname, ← hcomponents]

theorem reads_hash (hs : parser.parserState = .inArrayIndex) (hindex : parser.indexState = .start) :
    Reads path parser ('#' :: rest) { parser with indexState := .afterHash } rest :=
  reads_of_handle (by simp [handle, handleArrayIndex, hs, hindex]) le_rfl

theorem Ready.finalizePath_eq (h : Ready done [] parser) : finalizePath path parser = .ok done := by
  cases h with
  | closed hstate hcomponents =>
    rcases hstate with hstate | hstate <;> simp [finalizePath, hstate, hcomponents]
  | inKey hstate hk hname hquote hcomponents =>
    simp [finalizePath, hstate, hk, hname, hquote, hcomponents]

theorem reads_plain (hs : parser.parserState = .inKey) {name : List Char}
    (hplain : ∀ ch ∈ name, ch ≠ '.' ∧ ch ≠ '[' ∧ ch ≠ '"') :
    Reads path parser (name ++ rest) parser rest := by
  induction name with
  | nil => exact fun fuel hfuel => ⟨fuel, hfuel, rfl⟩
  | cons ch name ih =>
    obtain ⟨hch, hname⟩ := forall_mem_cons.1 hplain
    refine Reads.trans (reads_of_handle ?_ le_rfl) (ih hname)
    simp [handle, handleInKey, hs, hch]

theorem collected_digit (parser : Parser) (negative : Bool) (digit : Fin 10) :
    collected parser negative digit = { parser with
      indexState := if negative then .collectingNegativeNumbers else .collectingNumbers
      indexBuffer := signed negative digit } := by
  have hsmall : ∀ negative, ∀ digit : Fin 10, saturate (signed negative digit) =
      signed negative digit ∧ ¬ AtLimit (signed negative digit) := by decide
  simp [collected, hsmall negative digit]

/-- The digits of a number and the bracket after it. -/
theorem reads_number (hs : parser.parserState = .inArrayIndex) (negative : Bool)
    (number : Decimal) :
    Reads path (collected parser negative number.first) (number.rest.map digitChar ++ ']' :: rest)
      ((collected parser negative number.value).locate (if negative ∧ number.value = 0 then none
        else some (asI32 (saturate (signed negative number.value))))) rest :=
  (reads_digits hs negative number.rest number.first).trans
    (reads_of_handle (handle_close hs negative _) le_rfl)

/-- What an index makes of a number. -/
def locator (value : ℤ) : ℤ :=
  asI32 (saturate value)

theorem reads_step (step : PathStep) (h : Ready done (step.text ++ rest) parser) :
    ∃ next, Reads path parser (step.text ++ rest) next rest ∧
      Ready (done ++ [step.element locator]) rest next := by
  cases step with
  | key name nonempty plain =>
    obtain ⟨next, hdot, hstate, hkey, hdone⟩ := h.dot
    refine ⟨next, (reads_of_handle hdot le_rfl).trans (reads_plain hstate plain),
      .inKey hstate hkey nonempty (fun hquote => ?_) (by rw [hdone]; rfl)⟩
    exact (plain '"' (mem_of_mem_head? hquote)).2.2 rfl
  | quotedKey content escaped =>
    obtain ⟨next, hdot, hstate, -, hdone⟩ := h.dot
    refine ⟨{ next with
        components := next.components ++ [.key content true], parserState := .expectDotOrBracket },
      (reads_of_handle hdot le_rfl).trans (reads_of_handle ?_ (by simp; omega)),
      .closed (.inr rfl) (by rw [hdone]; rfl)⟩
    have hclosing : closingQuote '"' (content ++ '"' :: rest) = _ :=
      closingQuote_append escaped (by decide)
    simp [handle, handleInKey, handleQuotedKey, hstate, hclosing, between_append]
  | bracketQuotedKey quote isQuote content escaped =>
    obtain ⟨next, hbracket, hstate, hindex, hdone⟩ := h.bracket
    refine ⟨{ next with
        components := next.components ++ [.bracketQuotedKey content]
        parserState := .expectDotOrBracket },
      (reads_of_handle hbracket le_rfl).trans (reads_of_handle ?_ (by simp; omega)),
      .closed (.inr rfl) (by rw [hdone]; rfl)⟩
    have hclosing : closingQuote quote (content ++ quote :: ']' :: rest) = _ :=
      closingQuote_append escaped (by rcases isQuote with rfl | rfl <;> decide)
    have hother : quote ≠ '#' ∧ quote.isDigit = false := by
      rcases isQuote with rfl | rfl <;> decide
    simp [handle, handleArrayIndex, handleBracketQuotedKey, hstate, hindex, hother, isQuote,
      hclosing, between_append]
  | index number =>
    rw [PathStep.text, Decimal.text, cons_append, cons_append, append_assoc] at h ⊢
    obtain ⟨next, hbracket, hstate, hindex, hdone⟩ := h.bracket
    have hfirst : ∀ after, handle path next (digitChar number.first) after =
        .ok (collected next false number.first, after) := by
      intro after
      have hhash : digitChar number.first ≠ '#' := by
        generalize number.first = digit
        revert digit
        decide
      rw [collected_digit]
      simp [handle, handleArrayIndex, hstate, hindex, hhash, isDigit_digitChar, toDigit_digitChar,
        signed_false]
    refine ⟨_, (reads_of_handle hbracket le_rfl).trans
      ((reads_of_handle (hfirst _) le_rfl).trans (reads_number hstate false number)),
      .closed (.inr rfl) ?_⟩
    simp [Parser.locate, collected, hdone, PathStep.element, locator, signed_false]
  | fromEnd number =>
    rw [PathStep.text, Decimal.text, cons_append, cons_append, cons_append,
      cons_append, append_assoc] at h ⊢
    obtain ⟨next, hbracket, hstate, hindex, hdone⟩ := h.bracket
    have hminus : ∀ after, handle path { next with indexState := .afterHash } '-'
        (digitChar number.first :: after) = .ok (collected next true number.first, after) := by
      intro after
      rw [collected_digit]
      simp [handle, handleArrayIndex, handleNegativeIndex, hstate, isDigit_digitChar,
        toDigit_digitChar, signed_true]
    refine ⟨_, (reads_of_handle hbracket le_rfl).trans ((reads_hash hstate hindex).trans
      ((reads_of_handle (hminus _) (Nat.le_succ _)).trans (reads_number hstate true number))),
      .closed (.inr rfl) ?_⟩
    simp [Parser.locate, collected, hdone, PathStep.element, locator, signed_true]
  | last =>
    obtain ⟨next, hbracket, hstate, hindex, hdone⟩ := h.bracket
    have hclose : handle path { next with indexState := .afterHash } ']' rest =
        .ok (Parser.locate { next with indexState := .afterHash } none, rest) := by
      simp [handle, handleArrayIndex, hstate]
    refine ⟨_, (reads_of_handle hbracket le_rfl).trans ((reads_hash hstate hindex).trans
      (reads_of_handle hclose le_rfl)), .closed (.inr rfl) ?_⟩
    rw [Parser.locate, hdone]
    rfl

theorem reads_steps (steps : List PathStep) (h : Ready done (steps.flatMap PathStep.text) parser) :
    ∃ next, Reads path parser (steps.flatMap PathStep.text) next [] ∧
      Ready (done ++ steps.map (PathStep.element locator)) [] next := by
  induction steps generalizing parser done with
  | nil =>
    rw [map_nil, append_nil]
    exact ⟨parser, fun fuel hfuel => ⟨fuel, hfuel, rfl⟩, h⟩
  | cons step steps ih =>
    obtain ⟨middle, hstep, hready⟩ := reads_step step h
    obtain ⟨next, hsteps, hready⟩ := ih hready
    rw [append_assoc] at hready
    exact ⟨next, hstep.trans hsteps, hready⟩

/-- A path is read back as its steps. -/
theorem jsonPath_render (steps : List PathStep) :
    jsonPath (render steps) = .ok (.root :: steps.map (PathStep.element locator)) := by
  have hstart : Reads (render steps) ⟨.start, .start, render steps, 0, []⟩ (render steps)
      ⟨.afterRoot, .start, render steps, 0, [.root]⟩ (steps.flatMap PathStep.text) :=
    reads_of_handle rfl le_rfl
  have hroot : Ready [.root] (steps.flatMap PathStep.text)
      ⟨.afterRoot, .start, render steps, 0, [.root]⟩ := .closed (.inl rfl) rfl
  obtain ⟨next, hsteps, hready⟩ := reads_steps steps hroot
  have hloop := loop_of_reads (hstart.trans hsteps)
  have hne : render steps ≠ [] := cons_ne_nil _ _
  rw [jsonPath, if_neg hne, hloop]
  exact hready.finalizePath_eq

/-! ## Indices -/

/-- An index that an `i32` can hold. -/
def PathStep.Representable : PathStep → Prop
  | index number => number.value < 2 ^ 31
  | fromEnd number => number.value ≤ 2 ^ 31
  | _ => True

theorem locator_of_representable {value : ℤ} (hlow : -2 ^ 31 ≤ value) (hhigh : value < 2 ^ 31) :
    locator value = value := by
  have hsaturate : saturate value = value := by
    simp only [saturate, i128Max, i128Min]
    omega
  rw [locator, hsaturate, asI32, Int.bmod_eq_of_le (by omega) (by omega)]

theorem element_of_representable {step : PathStep} (h : step.Representable) :
    step.element locator = step.element id := by
  cases step with
  | index number =>
    have hv : (number.value : ℤ) < 2 ^ 31 := by exact_mod_cast h
    rw [PathStep.element, PathStep.element, locator_of_representable (by omega) hv, id]
  | fromEnd number =>
    have hv : (number.value : ℤ) ≤ 2 ^ 31 := by exact_mod_cast h
    rw [PathStep.element, PathStep.element, locator_of_representable (by omega) (by omega), id]
  | _ => rfl

end Turso.Json
