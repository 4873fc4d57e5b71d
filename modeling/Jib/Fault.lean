/-!
# Faults

One type of failure for the whole library.  A fault says what went wrong; some carry the text that
was stated with them.  An operation that may fail leaves the state it had reached, so a caller that
recovers from a fault sees every effect that came before it.
-/

namespace Jib

/-- What made an operation stop. -/
inductive Fault where
  /-- A stated condition did not hold. -/
  | assertion (message : String := "")
  /-- A value is not acceptable; the text is present when the check is a stated one. -/
  | badValue (message : Option String := none)
  /-- An operand has the wrong kind, found by a stated check. -/
  | badType (message : String)
  /-- A name has no entry. -/
  | missingKey (message : Option String := none)
  /-- An index lies outside its sequence. -/
  | outOfRange
  | divisionByZero (message : Option String)
  | overflow (message : Option String)
  /-- The operation exists but has no definition in this form. -/
  | abstractOperation
  /-- A case that is known and deliberately left open. -/
  | unfinished
  /-- A numeral that cannot be read. -/
  | badNumeral
  /-- A graph that cannot be cut in two. -/
  | cannotSplit
  /-- A rewriting rule does not apply. -/
  | noMatch
  /-- An operand lacks what the operation needs. -/
  | internal
  /-- The text has no token at this offset. -/
  | lexical (offset : Nat)
  /-- The token at this offset, or the end of the text, does not fit the grammar. -/
  | grammar (offset : Option Nat)
  /-- A stated failure of another kind. -/
  | named (kind : String) (message : Option String)
  deriving Repr, BEq, DecidableEq, Inhabited

/-- A value, or the fault that came up instead. -/
abbrev Result := Except Fault

end Jib
