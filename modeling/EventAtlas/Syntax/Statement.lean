import EventAtlas.Syntax.Declaration

/-!
# Statements

A statement is a declaration, a block, one of the forms that start with a word, or an expression. The forms with a
body take one statement, or statements after a colon up to the word that ends the form.
-/

namespace EventAtlas.Syntax

open Reads

namespace Grammar

/-- Whether one of these words is next. -/
def seesAny (words : List String) : Reads Bool := do
  match ← peekToken? with
  | some (.word w) => return words.contains w
  | _ => return false

def atEnd : Reads Bool := do
  return (← peek?).isNone

def statementsUntil (inner : Inner) (words : List String) : Reads (List Tree) :=
  interleaved (seesAny words) (inner .statement)

/-- Statements after a colon, up to one of these words. -/
def colonBlock (inner : Inner) (words : List String) : Reads Tree := do
  let start ← mark
  expect ":"
  let body ← statementsUntil inner words
  return (← close (.controlFlow "colon_block") start body).playing .body

/-- The end of a form whose body stands after a colon. -/
def ending (word : String) : Reads Unit := do
  expectWord word
  semicolon

/-- Expressions with commas between them, nested to the right; `n` bounds their number. -/
def sequenceOf (inner : Inner) : Nat → Reads Tree
  | 0 => failure
  | n + 1 => do
    let start ← mark
    let e ← inner (.expression 0)
    if ← accept "," then
      let rest ← sequenceOf inner n
      close (.other "sequence_expression") start [e, rest]
    else return e

/-- Expressions with commas between them. -/
def expressionSequence (inner : Inner) : Reads Tree := do
  sequenceOf inner ((← get).ahead.length + 1)

/-- Expressions up to a closing symbol, which is taken. -/
def sequence? (inner : Inner) (closing : String) : Reads (List Tree) := do
  if ← accept closing then return []
  else
    let e ← expressionSequence inner
    expect closing
    return [e]

/-! ## Conditions and loops -/

/-- One clause after the body of a condition. -/
def alternative? (inner : Inner) : Reads (Option Tree) := do
  let start ← mark
  if ← acceptWord "elseif" then
    let condition ← bracketed inner
    let body ← inner .statement
    return some (← close (.controlFlow "else_if_clause") start [condition, body])
  else if ← acceptWord "else" then
    let body ← inner .statement
    return some (← close (.controlFlow "else_clause") start [body])
  else return none

/-- One clause after the body of a condition that stands after a colon. -/
def colonAlternative? (inner : Inner) : Reads (Option Tree) := do
  let start ← mark
  if ← acceptWord "elseif" then
    let condition ← bracketed inner
    let body ← colonBlock inner ["elseif", "else", "endif"]
    return some (← close (.controlFlow "else_if_clause") start [condition, body])
  else if (← seesWord "else") && (← peekSecond?) == some (.symbol ":") then
    expectWord "else"
    let body ← colonBlock inner ["endif"]
    return some (← close (.controlFlow "else_clause") start [body])
  else return none

/-- The clauses after the body of a condition, as long as one of their words is next. -/
def alternatives (clause? : Reads (Option Tree)) : Reads (List Tree) :=
  many do
    if ← seesAny ["elseif", "else"] then clause? else return none

/-- A condition. -/
def ifStatement (inner : Inner) (start : Extent) : Reads Tree := do
  expectWord "if"
  let condition ← bracketed inner
  if ← sees ":" then
    let body ← colonBlock inner ["elseif", "else", "endif"]
    let more ← alternatives (colonAlternative? inner)
    ending "endif"
    close (.controlFlow "if_statement") start (condition :: body :: more)
  else
    let body ← inner .statement
    let more ← alternatives (alternative? inner)
    close (.controlFlow "if_statement") start (condition :: body :: more)

/-- A loop with its condition first. -/
def whileStatement (inner : Inner) (start : Extent) : Reads Tree := do
  expectWord "while"
  let condition ← bracketed inner
  if ← sees ":" then
    let body ← colonBlock inner ["endwhile"]
    ending "endwhile"
    close (.controlFlow "while_statement") start [condition, body]
  else
    let body ← inner .statement
    close (.controlFlow "while_statement") start [condition, body]

/-- A loop with its condition last. -/
def doStatement (inner : Inner) (start : Extent) : Reads Tree := do
  expectWord "do"
  let body ← inner .statement
  expectWord "while"
  let condition ← bracketed inner
  semicolon
  close (.controlFlow "do_statement") start [body, condition]

/-- A loop with a start, a condition and a step. -/
def forStatement (inner : Inner) (start : Extent) : Reads Tree := do
  expectWord "for"
  expect "("
  let first ← sequence? inner ";"
  let condition ← sequence? inner ";"
  let step ← sequence? inner ")"
  let head := first ++ condition ++ step
  if ← accept ":" then
    let body ← statementsUntil inner ["endfor"]
    ending "endfor"
    close (.controlFlow "for_statement") start (head ++ body)
  else
    let body ← inner .statement
    close (.controlFlow "for_statement") start (head ++ [body])

/-- The target of a loop over elements, with the key before it if there is one. -/
def loopTarget (inner : Inner) : Reads Tree := do
  let start ← mark
  match ← keyedTarget inner with
  | [t] => return t
  | both => close .pair start both

def foreachStatement (inner : Inner) (start : Extent) : Reads Tree := do
  expectWord "foreach"
  expect "("
  let source ← inner (.expression 0)
  expectWord "as"
  let target ← loopTarget inner
  expect ")"
  if ← sees ":" then
    let body ← colonBlock inner ["endforeach"]
    ending "endforeach"
    close .foreachStatement start [source, target, body]
  else if ← accept ";" then close .foreachStatement start [source, target]
  else
    let body := (← inner .statement).playing .body
    close .foreachStatement start [source, target, body]

/-! ## Choices -/

def labelEnd : Reads Unit := do
  if ← accept ":" then return else expect ";"

/-- Whether the statements of a label end here. -/
def labelStops : Reads Bool := do
  if ← sees "\x7d" then return true else seesAny ["case", "default", "endswitch"]

/-- One label of a choice with its statements. -/
def switchLabel (inner : Inner) : Reads Tree := do
  let start ← mark
  if ← acceptWord "default" then
    labelEnd
    let body ← interleaved labelStops (inner .statement)
    close (.controlFlow "default_statement") start body
  else
    expectWord "case"
    let value := (← inner (.expression 0)).playing .value
    labelEnd
    let body ← interleaved labelStops (inner .statement)
    close (.controlFlow "case_statement") start (value :: body)

/-- The labels of a choice. -/
def switchBlock (inner : Inner) : Reads Tree := do
  let start ← mark
  if ← accept ":" then
    let labels ← interleaved (seesWord "endswitch") (switchLabel inner)
    ending "endswitch"
    close (.controlFlow "switch_block") start labels
  else
    expect "\x7b"
    let labels ← interleaved (sees "\x7d") (switchLabel inner)
    expect "\x7d"
    close (.controlFlow "switch_block") start labels

/-- A choice. -/
def switchStatement (inner : Inner) (start : Extent) : Reads Tree := do
  expectWord "switch"
  let condition ← bracketed inner
  let block ← switchBlock inner
  close (.controlFlow "switch_statement") start [condition, block]

/-! ## Failures -/

/-- The types that a clause catches. -/
def caughtTypes : Reads Tree := do
  let start ← mark
  let first ← typeLeaf
  let more ← many do
    if ← accept "|" then return some (← typeLeaf) else return none
  close .typeList start (first :: more)

/-- One clause that catches, or the one that is always run. -/
def handler? (inner : Inner) : Reads (Option Tree) := do
  if ← seesWord "catch" then
    let start ← mark
    expectWord "catch"
    expect "("
    let types ← caughtTypes
    let bound ← if ← sees ")" then pure [] else pure [(← variableLeaf).playing .name]
    expect ")"
    let body := (← inner .block).playing .body
    return some (← close .catchClause start ([types] ++ bound ++ [body]))
  else if ← seesWord "finally" then
    let start ← mark
    expectWord "finally"
    let body := (← inner .block).playing .body
    return some (← close (.controlFlow "finally_clause") start [body])
  else return none

/-- A guarded block with at least one clause. -/
def tryStatement (inner : Inner) (start : Extent) : Reads Tree := do
  expectWord "try"
  let body := (← inner .block).playing .body
  let handlers ← many (handler? inner)
  if handlers.isEmpty then failure
  else close (.controlFlow "try_statement") start (body :: handlers)

/-! ## Simple statements -/

/-- A word with an expression that may be missing. -/
def wordStatement (inner : Inner) (kind : Kind) (start : Extent) : Reads Tree := do
  let _ ← take
  let value ← if ← seesOperand then pure [← inner (.expression 0)] else pure []
  semicolon
  close kind start value

/-- Variables with commas between them, after a word. -/
def globalStatement (inner : Inner) (start : Extent) : Reads Tree := do
  expectWord "global"
  let vs ← commaSeparated (simpleVariable inner)
  semicolon
  close (.other "global_declaration") start vs

/-- Variables that are forgotten. -/
def unsetStatement (inner : Inner) (start : Extent) : Reads Tree := do
  expectWord "unset"
  expect "("
  let vs ← enclosed ")" (chain inner)
  semicolon
  close (.other "unset_statement") start vs

/-- Text that is written. -/
def echoStatement (inner : Inner) (start : Extent) : Reads Tree := do
  expectWord "echo"
  let e ← expressionSequence inner
  semicolon
  close (.other "echo_statement") start [e]

/-- The end of the program, perhaps with a value in brackets. -/
def exitStatement (inner : Inner) (start : Extent) : Reads Tree := do
  expectWord "exit"
  let value ← if ← accept "(" then
      if ← accept ")" then pure []
      else
        let e ← inner (.expression 0)
        expect ")"
        pure [e]
    else pure []
  semicolon
  close (.other "exit_statement") start value

/-- One variable that is kept between calls. -/
def staticVariable (inner : Inner) : Reads Tree := do
  let start ← mark
  let name := (← variableLeaf).playing .name
  let value ← if ← accept "=" then pure [(← inner (.expression 0)).playing .value] else pure []
  close .staticVariable start (name :: value)

/-- Variables that are kept between calls. -/
def staticDeclaration (inner : Inner) (start : Extent) : Reads Tree := do
  expectWord "static"
  let vs ← commaSeparated (staticVariable inner)
  semicolon
  close .staticDeclaration start vs

/-- One setting of a declaration of settings. -/
def directive (inner : Inner) : Reads Tree := do
  let start ← mark
  let _ ← wordLeaf
  expect "="
  let value ← inner (.expression operandLevel)
  close (.other "declare_directive") start [value]

def declareStatement (inner : Inner) (start : Extent) : Reads Tree := do
  expectWord "declare"
  expect "("
  let settings ← enclosed ")" (directive inner)
  let kind : Kind := .controlFlow "declare_statement"
  if ← accept ":" then
    let body ← statementsUntil inner ["enddeclare"]
    ending "enddeclare"
    close kind start (settings ++ body)
  else if ← sees "\x7b" then
    let body ← inner .statement
    close kind start (settings ++ [body])
  else
    semicolon
    close kind start settings

def jumpStatement (start : Extent) : Reads Tree := do
  expectWord "goto"
  let name ← wordLeaf
  semicolon
  close (.other "goto_statement") start [name]

/-- A place to jump to. -/
def labelStatement (start : Extent) : Reads Tree := do
  let name ← wordLeaf
  expect ":"
  close (.other "named_label_statement") start [name]

/-! ## Names -/

/-- A namespace, with the block it holds or without one. -/
def namespaceDefinition (inner : Inner) (start : Extent) : Reads Tree := do
  expectWord "namespace"
  let name ← if isNameToken (← peekToken?) then pure [(← nameLeaf).playing .name] else pure []
  if ← sees "\x7b" then
    let body := (← inner .block).playing .body
    close .namespaceDefinition start (name ++ [body])
  else if name.isEmpty then failure
  else
    semicolon
    close .namespaceDefinition start name

/-- Pass over the word for functions or constants before an imported name. -/
def importKind : Reads Unit := do
  if (← seesAny ["function", "const"]) && isNameToken (← peekSecond?) then
    let _ ← take

/-- Pass over the name that an import is known by, if one is given. -/
def importAlias : Reads Unit := do
  if ← acceptWord "as" then
    let _ ← wordLeaf

def importClause : Reads Unit := do
  importKind
  let _ ← nameLeaf
  importAlias

/-- An import; its words are read where they are needed. -/
def importDeclaration (start : Extent) : Reads Tree := do
  expectWord "use"
  importKind
  let _ ← nameLeaf
  if ← accept "\\" then
    expect "\x7b"
    let _ ← enclosed "\x7d" importClause
  else
    importAlias
    let _ ← many do
      if ← accept "," then return some (← importClause) else return none
  semicolon
  close .importDeclaration start []

/-! ## All statements -/

def block (inner : Inner) : Reads Tree := do
  let start ← mark
  expect "\x7b"
  let body ← interleaved (sees "\x7d") (inner .statement)
  expect "\x7d"
  close .compoundStatement start body

def expressionStatement (inner : Inner) (start : Extent) : Reads Tree := do
  let e ← inner (.expression 0)
  semicolon
  close .expressionStatement start [e]

/-- The statement that a word starts, if it starts one. -/
def wordStatement? (inner : Inner) (start : Extent) (w : String) : Reads (Option Tree) := do
  let second ← peekSecond?
  match w with
  | "if" => return some (← ifStatement inner start)
  | "while" => return some (← whileStatement inner start)
  | "do" => return some (← doStatement inner start)
  | "for" => return some (← forStatement inner start)
  | "foreach" => return some (← foreachStatement inner start)
  | "switch" => return some (← switchStatement inner start)
  | "try" => return some (← tryStatement inner start)
  | "return" => return some (← wordStatement inner .returnStatement start)
  | "break" => return some (← wordStatement inner (.other "break_statement") start)
  | "continue" => return some (← wordStatement inner (.other "continue_statement") start)
  | "echo" => return some (← echoStatement inner start)
  | "global" => return some (← globalStatement inner start)
  | "unset" => return some (← unsetStatement inner start)
  | "declare" => return some (← declareStatement inner start)
  | "goto" => return some (← jumpStatement start)
  | "exit" => return some (← exitStatement inner start)
  | "namespace" => return some (← namespaceDefinition inner start)
  | "use" => return some (← importDeclaration start)
  | "static" => if second == some .var then return some (← staticDeclaration inner start) else return none
  | _ => if second == some (.symbol ":") then return some (← labelStatement start) else return none

def statement (inner : Inner) : Reads Tree := do
  let start ← mark
  if ← sees "\x7b" then inner .block
  else if ← sees ";" then leaf (.mark "empty_statement")
  else
    let before ← get
    attributes
    match ← declaration? inner start with
    | some t => return t
    | none =>
      set before
      let special ← match ← peekToken? with
        | some (.word w) => wordStatement? inner start w
        | _ => pure none
      match special with
      | some t => return t
      | none => expressionStatement inner start

/-! ## The grammar -/

/-- What each rule reads. -/
def step (inner : Inner) : Inner
  | .statement => statement inner
  | .block => block inner
  | .members => members inner
  | .expression level => expression inner level
  | .targets => targets inner
  | .type => declaredType

/-- The rules with phrases nested at most `n` deep. -/
def rules : Nat → Inner
  | 0 => fun _ => failure
  | n + 1 => step (rules n)

def statements (n : Nat) : Reads (List Tree) :=
  interleaved atEnd (rules n .statement)

end Grammar

namespace Tree

/-- The place after the last byte of a source. -/
def endOf (source : Source) : Extent :=
  ⟨source.size, source.size, (ByteArray.toList source).count 10⟩

/-- The tree of a source, if it follows the grammar. A phrase nests at most three levels for each lexeme. -/
def ofSource (source : Source) : Option Tree := do
  let lexemes ← Lexeme.ofSource source
  let (ts, _) ← (Grammar.statements (3 * lexemes.length + 8)).run { ahead := lexemes }
  let start := (lexemes.head?.map Lexeme.extent).getD (endOf source)
  return .node .program none { start with stop := source.size } ts

end Tree

end EventAtlas.Syntax
