import Jib.Primitive.Effect

/-!
# Operations named by their receiver

The operations of integers, bit vectors and rationals under their short names, found by the form of
the first operand, and the named ways of making such values.
-/

namespace Jib.Primitive

def integerMethods : List (String × Function) := [
  ("__repr__", total1 Integer.describe),
  ("str", total1 Integer.decimal),
  ("hex", fn1 Integer.hex),
  ("toint", fn1 Integer.toWord),
  ("touint", total1 Integer.toUnsigned),
  ("tobigint", total1 (fun (z : Integer) => Datum.bignum z.spelled)),
  ("tolong", total1 Integer.spelled),
  ("neg", fn1 Integer.neg),
  ("abs", fn1 Integer.abs),
  ("add", fn2 Integer.add),
  ("sub", fn2 Integer.sub),
  ("mul", fn2 Integer.mul),
  ("pow", fn2 Integer.pow),
  ("tdiv", fn2 Integer.tdiv),
  ("tmod", fn2 Integer.tmod),
  ("ediv", fn2 Integer.ediv),
  ("emod", fn2 Integer.emod),
  ("int_add", fn2 Integer.addWord),
  ("int_sub", fn2 Integer.subWord),
  ("int_mul", fn2 Integer.mulWord),
  ("int_eq", total2 Integer.eqWord),
  ("eq", total2 Integer.eq),
  ("lt", fn2 Integer.lt),
  ("le", fn2 Integer.le),
  ("gt", fn2 Integer.gt),
  ("ge", fn2 Integer.ge),
  ("lshift", fn2 shiftLeft),
  ("rshift", fn2 Integer.shiftRight),
  ("slice", fn3 Integer.slice),
  ("slice_unwrapped_res", fn3 Integer.sliceWord),
  ("set_slice_int", fn4 setSlice)]

def checkWidth (b : Bits) (width : Int) : Result Bits :=
  if (b.width : Int) == width then .ok b else .error (.badValue (some ""))

def bitsMethods : List (String × Function) := [
  ("__repr__", total1 Bits.describe),
  ("string_of_bits", total1 Bits.text),
  ("size", total1 (fun (b : Bits) => (b.width : Int))),
  ("size_as_int", fn1 (fun (b : Bits) => Integer.ofWord b.width)),
  ("check_size_and_return", fn2 checkWidth),
  ("tell_jit_size_and_return", total2 (fun (b : Bits) (_ : Int) => b)),
  ("toint", fn1 Bits.toWord),
  ("touint", fun
    | [b] => fn2 Bits.toUnsigned [b, .int 0]
    | ds => fn2 Bits.toUnsigned ds),
  ("tobigint", total1 (fun (b : Bits) => Datum.bignum b.toNat)),
  ("tolong", total1 (fun (b : Bits) => (b.toNat : Int))),
  ("signed", fn1 Bits.signed),
  ("unsigned", fn1 Bits.unsigned),
  ("read_bit", fn2 readBit),
  ("update_bit", fn3 Bits.updateBit),
  ("eq", fn2 Bits.eq),
  ("add_bits", fn2 Bits.add),
  ("sub_bits", fn2 Bits.sub),
  ("add_int", fn2 Bits.addInt),
  ("sub_int", fn2 Bits.subInt),
  ("xor", fn2 Bits.xor),
  ("or_", fn2 Bits.or),
  ("and_", fn2 Bits.and),
  ("invert", fn1 Bits.not),
  ("lshift", fn2 Bits.shiftLeft),
  ("rshift", fn2 Bits.shiftRight),
  ("arith_rshift", fn2 Bits.arithShiftRight),
  ("lshift_bits", fn2 Bits.shiftLeftBy),
  ("rshift_bits", fn2 Bits.shiftRightBy),
  ("subrange", fn3 Bits.subrange),
  ("subrange_unwrapped_res", fn3 Bits.subrangeWord),
  ("update_subrange", fn4 Bits.updateSubrange),
  ("zero_extend", fn2 Bits.zeroExtend),
  ("sign_extend", fn2 Bits.signExtend),
  ("truncate", fn2 Bits.truncate),
  ("append", fn2 Bits.append),
  ("append_64", fn2 Bits.appendWord),
  ("replicate", fn2 Bits.replicate)]

def rationalMethods : List (String × Function) := [
  ("add", total2 Rational.add),
  ("sub", total2 Rational.sub),
  ("mul", total2 Rational.mul),
  ("div", fn2 Rational.div),
  ("pow", fn2 Rational.pow),
  ("neg", total1 Rational.neg),
  ("abs", total1 Rational.abs),
  ("ceil", fn1 (fun (q : Rational) => do return Datum.bignum (← q.ceil))),
  ("floor", fn1 (fun (q : Rational) => do return Datum.bignum (← q.floor))),
  ("eq", total2 Rational.eq),
  ("lt", total2 Rational.lt),
  ("gt", total2 Rational.gt),
  ("le", total2 Rational.le),
  ("ge", total2 Rational.ge),
  ("toint", fn1 Rational.toWord),
  ("sqrt", fn1 Rational.sqrt)]

def wordList (ws : List UInt64) : RunM Datum := RunM.newList (ws.map Datum.word).toArray

/-- An integer in two parts: its number and nothing, or its sign and its digits. -/
def packInteger : Integer → RunM (List Datum)
  | .small n => return [.int n.toInt, .none]
  | .big s ds => return [.int s, ← wordList ds]

/-- The word that stands beside the words of a wide vector. -/
def packMark : UInt64 := 0xdeaddead

/-- A bit vector in three parts: its width, its word, and its words if it has several. -/
def packBits : Bits → RunM (List Datum)
  | .small w v => return [.int w, .word v, .none]
  | .sparse w v => return [.int w, .word v, .none]
  | .wide w ws => return [.int w, .word packMark, ← wordList ws]

def wordsOf (d : Datum) : RunM (List UInt64) := do
  (← RunM.items d).toList.mapM (fun x => operand x)

/-- The bit vector that three parts make. -/
def unpackBits (width : Int) (v : UInt64) (data : Datum) : RunM Bits := do
  if width ≤ 64 then
    if data != .none then throw .assertion
    RunM.ofExcept (Bits.mkSmall width v)
  else if data == .none then RunM.ofExcept (Bits.mkSparse width v)
  else RunM.ofExcept (Bits.mkWide width (← wordsOf data))

/-- The integer that two parts make. -/
def unpackInteger (n : Int) (data : Datum) : RunM Integer := do
  if data == .none then RunM.ofExcept (Integer.ofWord n)
  else return .big n (← wordsOf data)

def methodOf (table : List (String × Function)) (name : String) (args : List Datum) :
    RunM Datum := do
  RunM.ofExcept ((← RunM.ofOption (table.lookup name)) args)

/-- Calls an operation by its short name on the first operand. -/
def callMethod (name : String) (args : List Datum) : RunM Datum := do
  match args with
  | .integer z :: _ =>
    if name == "pack" then RunM.newList (← packInteger z).toArray
    else methodOf integerMethods name args
  | .bits b :: _ =>
    if name == "pack" then RunM.newList (← packBits b).toArray
    else methodOf bitsMethods name args
  | .rational q :: _ =>
    if name == "totuple" then
      let m ← RunM.ofExcept (Rational.word q.num)
      let n ← RunM.ofExcept (Rational.word q.den)
      RunM.newList #[.int m, .int n]
    else methodOf rationalMethods name args
  | _ => throw .internal

/-- Ways of making values, by name. -/
def makers : List (String × Effect) := [
  ("Integer.fromstr", call "string_to_int"),
  ("Integer.from_data_and_sign", effect fun ds s => wordsOf ds >>= fun ws =>
    RunM.ofExcept (Integer.ofDigits s ws)),
  ("Integer.unpack", effect unpackInteger),
  ("BitVector.unpack", effect unpackBits)] ++ lifted [
  ("Integer.from_ruint", total1 Integer.ofUnsigned),
  ("SmallInteger.add_i_i", fn2 Integer.addWords),
  ("SmallInteger.sub_i_i", fn2 Integer.subWords),
  ("SmallInteger.mul_i_i", fn2 Integer.mulWords),
  ("SmallInteger.lshift_i_i", fn2 shiftWordLeft),
  ("bitvector.from_ruint", fn2 Bits.ofWord),
  ("Real.fromint", fun
    | [n] => fn2 Rational.ofWords [n, .int 1]
    | ds => fn2 Rational.ofWords ds),
  ("Real.fromstr", fn1 Rational.ofText)]

/-- Calls what a name stands for: an operation of its receiver if the name starts with a point, a
way of making a value, or a primitive. -/
def invoke (name : String) (args : List Datum) : RunM Datum :=
  match name.toList with
  | '.' :: cs => callMethod (String.ofList cs) args
  | _ =>
    (makers.lookup name).getD (call name) args

end Jib.Primitive
