import Jib.Primitive.Datum

/-!
# Operands and answers

How typed functions become primitives on data.  An operand of the wrong kind, or a wrong number of
operands, is a failure.
-/

namespace Jib

class Operand (α : Type) where
  read : Datum → Result α

class Answer (α : Type) where
  give : α → Datum

instance : Operand Datum := ⟨.ok⟩

instance : Operand Int where
  read
    | .int n => .ok n
    | .word w => .ok w.toNat
    | .bool b => .ok (if b then 1 else 0)
    | _ => .error .internal

instance : Operand UInt64 where
  read
    | .word w => .ok w
    | .int n => .ok (Word.ofInt n)
    | .bool b => .ok (if b then 1 else 0)
    | _ => .error .internal

instance : Operand Integer where
  read
    | .integer z => .ok z
    | _ => .error .internal

instance : Operand Bits where
  read
    | .bits b => .ok b
    | _ => .error .internal

instance : Operand Rational where
  read
    | .rational q => .ok q
    | _ => .error .internal

/-- Any value can be a condition. -/
instance : Operand Bool := ⟨fun d => .ok d.truth⟩

instance : Operand String where
  read
    | .text s => .ok s
    | _ => .error .internal

instance : Answer Datum := ⟨id⟩
instance : Answer Int := ⟨.int⟩
instance : Answer UInt64 := ⟨.word⟩
instance : Answer Integer := ⟨.integer⟩
instance : Answer Bits := ⟨.bits⟩
instance : Answer Rational := ⟨.rational⟩
instance : Answer Bool := ⟨.bool⟩
instance : Answer String := ⟨.text⟩
instance : Answer Unit := ⟨fun _ => .unit⟩

namespace Primitive

/-- A primitive without effects. -/
abbrev Function := List Datum → Result Datum

variable {α β γ δ ε ρ : Type}

def fn1 [Operand α] [Answer ρ] (f : α → Result ρ) : Function
  | [a] => do return Answer.give (← f (← Operand.read a))
  | _ => .error .internal

def fn2 [Operand α] [Operand β] [Answer ρ] (f : α → β → Result ρ) : Function
  | [a, b] => do return Answer.give (← f (← Operand.read a) (← Operand.read b))
  | _ => .error .internal

def fn3 [Operand α] [Operand β] [Operand γ] [Answer ρ] (f : α → β → γ → Result ρ) : Function
  | [a, b, c] => do
    return Answer.give (← f (← Operand.read a) (← Operand.read b) (← Operand.read c))
  | _ => .error .internal

def fn4 [Operand α] [Operand β] [Operand γ] [Operand δ] [Answer ρ]
    (f : α → β → γ → δ → Result ρ) : Function
  | [a, b, c, d] => do
    return Answer.give
      (← f (← Operand.read a) (← Operand.read b) (← Operand.read c) (← Operand.read d))
  | _ => .error .internal

def fn5 [Operand α] [Operand β] [Operand γ] [Operand δ] [Operand ε] [Answer ρ]
    (f : α → β → γ → δ → ε → Result ρ) : Function
  | [a, b, c, d, e] => do
    return Answer.give (← f (← Operand.read a) (← Operand.read b) (← Operand.read c)
      (← Operand.read d) (← Operand.read e))
  | _ => .error .internal

/-- A function that cannot fail. -/
def total1 [Operand α] [Answer ρ] (f : α → ρ) : Function := fn1 (fun a => .ok (f a))

def total2 [Operand α] [Operand β] [Answer ρ] (f : α → β → ρ) : Function :=
  fn2 (fun a b => .ok (f a b))

def total3 [Operand α] [Operand β] [Operand γ] [Answer ρ] (f : α → β → γ → ρ) : Function :=
  fn3 (fun a b c => .ok (f a b c))

end Primitive

/-- The machine integer that a boxed value holds. -/
def Datum.toWord : Datum → Result Int
  | .integer z => z.toWord
  | .bits b => b.toWord
  | .rational q => q.toWord
  | _ => .error .internal

end Jib
