import CircuitWitness.Constraint.Term

/-!
# Log entries

A format text whose placeholders, an opening brace followed by a closing one, are filled with
the values of linear expressions. Entries serve log statements of a circuit and descriptions of
its constraints alike.
-/

namespace CircuitWitness

/-- A statement to be filled in, with the place it comes from (`LogEntry`). -/
structure LogEntry where
  caller : String
  format : String
  exprs : List LinearExpr
  /-- Locations in a symbol table, innermost first. -/
  stack : List UInt32
deriving DecidableEq, Repr, Inhabited

namespace LogEntry

/-- Fills the placeholders from left to right (the loop of `render`). Those left over stay as they
    are, expressions left over are not looked at, and what was filled in is not searched again. The
    texts may be found by a program, which is run once for each placeholder that is filled. -/
def fill {m : Type → Type} [Monad m] (resolve : LinearExpr → m String) :
    List Char → List LinearExpr → m (List Char)
  | '\x7b' :: '\x7d' :: rest, e :: es => do
    let text ← resolve e
    let others ← fill resolve rest es
    return text.toList ++ others
  | '\x7b' :: '\x7d' :: rest, [] => do
    let others ← fill resolve rest []
    return '\x7b' :: '\x7d' :: others
  | c :: rest, es => do
    let others ← fill resolve rest es
    return c :: others
  | [], _ => return []

/-- The format with its placeholders filled by a program (`render` with its `resolve` as a
    program). -/
def renderM {m : Type → Type} [Monad m] (entry : LogEntry) (resolve : LinearExpr → m String) :
    m String := do
  let text ← fill resolve entry.format.toList entry.exprs
  return String.ofList text

/-- The format with its placeholders filled (`render`). -/
def render (entry : LogEntry) (resolve : LinearExpr → String) : String :=
  Id.run (entry.renderM fun e => pure (resolve e))

/-- Caller, format, expressions, stack (`serialize` and `deserialize` of `LogEntry`). -/
def codec : Codec LogEntry :=
  (Codec.pair .string (.pair .string (.pair (.list (.list Term.codec)) (.list .u32)))).imap
    (fun (caller, format, exprs, stack) => ⟨caller, format, exprs, stack⟩)
    (fun e => (e.caller, e.format, e.exprs, e.stack))

end LogEntry

end CircuitWitness
