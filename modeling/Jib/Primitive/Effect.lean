import Jib.Ieee.Conversion
import Jib.Primitive.Pure

/-!
# Primitives with effects

Primitives that print, use lists, the memory or the registers of the floating-point unit.
-/

namespace Jib.Primitive

/-- A primitive that may change the state. -/
abbrev Effect := List Datum → RunM Datum

def operand {α : Type} [Operand α] (d : Datum) : RunM α := RunM.ofExcept (Operand.read d)

/-- Computations, and functions of operands with which they become one. -/
class IsEffect (φ : Type) where
  effect : φ → Effect

export IsEffect (effect)

instance {ρ : Type} [Answer ρ] : IsEffect (RunM ρ) where
  effect x
    | [] => do return Answer.give (← x)
    | _ => throw .internal

instance {α φ : Type} [Operand α] [IsEffect φ] : IsEffect (α → φ) where
  effect f
    | a :: ds => do effect (f (← operand a)) ds
    | [] => throw .internal

/-! ### Printing -/

def printEffects : List (String × Effect) := [
  ("print_bits", effect fun s (b : Bits) => RunM.print (s ++ b.text ++ "\n")),
  ("prerr_bits", effect fun s (b : Bits) => RunM.printError (s ++ b.text ++ "\n")),
  ("print_int", effect fun s (z : Integer) => RunM.print (s ++ z.decimal ++ "\n")),
  ("prerr_int", effect fun s (z : Integer) => RunM.printError (s ++ z.decimal ++ "\n")),
  ("print_real", effect fun (s : String) (q : Rational) =>
    RunM.print (s ++ toString q.num ++ "/" ++ toString q.den ++ "\n")),
  ("print_endline", effect fun s => RunM.print (s ++ "\n")),
  ("print_", effect RunM.print),
  ("prerr_endline", effect fun s => RunM.printError (s ++ "\n")),
  ("sail_putchar", effect fun (z : Datum) => RunM.ofExcept z.toWord >>= fun n =>
    RunM.print (String.singleton (Char.ofNat (n % 256).toNat)))]

/-! ### Lists -/

/-- A copy of a list with one element replaced. -/
def updatedList (l : Datum) (i : Int) (d : Datum) : RunM Datum := do
  let xs ← RunM.items l
  RunM.newList (xs.setIfInBounds (← RunM.ofExcept (listPosition xs.size i)) d)

/-- Replaces an element of a list in place. -/
def updateList (l : Datum) (i : Int) (d : Datum) : RunM Unit := do
  let xs ← RunM.items l
  match l with
  | .list r => RunM.setItems r (xs.setIfInBounds (← RunM.ofExcept (listPosition xs.size i)) d)
  | _ => throw .internal

/-- The value of a field of an object. -/
def readField (d : Datum) (name : String) : RunM Datum := do
  return (← RunM.ofOption ((← RunM.object d).2.find? (·.1 == name))).2

/-- A conversion of lists that is left open. -/
def openList : Effect
  | [.list _] => throw .unfinished
  | [_] => throw .assertion
  | _ => throw .internal

def listEffects : List (String × Effect) := [
  ("vector_update_inplace", effect fun (_ : Datum) => updatedList),
  ("vector_update_list", effect updatedList),
  ("helper_vector_update_inplace_o_i_o", fun
    | [.none, _, _] => throw (.badType "")
    | ds => effect (fun l i d => updateList l i d *> pure Datum.none) ds),
  ("undefined_vector", effect fun (n d : Datum) => RunM.ofExcept n.toWord >>= fun n =>
    RunM.newList (Array.replicate n.toNat d)),
  ("vec_gbv_to_vec_bv8", openList),
  ("vec_gbv_to_vec_bv16", openList),
  ("internal_pick", effect fun l => readField l "head")]

/-! ### Floating point -/

/-- Stores a result and its conditions in the registers for them. -/
def floatResult (r : Nat × Ieee.Flags) : RunM Datum := do
  RunM.setSlot "_reg_zfloat_result" (.word r.1.toUInt64)
  RunM.setSlot "_reg_zfloat_fflags" (.word r.2.code.toUInt64)
  return .int 0

def roundingOf (w : UInt64) : Ieee.Rounding := .ofCode (w.toNat % 256)

def floatUnary (f : Ieee.Rounding → Nat → Nat × Ieee.Flags) : Effect :=
  effect fun m (a : UInt64) => floatResult (f (roundingOf m) a.toNat)

def floatBinary (f : Ieee.Rounding → Nat → Nat → Nat × Ieee.Flags) : Effect :=
  effect fun m (a b : UInt64) => floatResult (f (roundingOf m) a.toNat b.toNat)

def floatTernary (f : Ieee.Rounding → Nat → Nat → Nat → Nat × Ieee.Flags) : Effect :=
  effect fun m (a b c : UInt64) => floatResult (f (roundingOf m) a.toNat b.toNat c.toNat)

def floatCompare (f : Nat → Nat → Nat × Ieee.Flags) : Effect :=
  effect fun (a b : UInt64) => floatResult (f a.toNat b.toNat)

def formats : List (String × Ieee.Format) := [("f16", .half), ("f32", .single), ("f64", .double)]

def integerTypes : List (String × Ieee.IntegerType) :=
  [("i32", ⟨32, true⟩), ("i64", ⟨64, true⟩), ("ui32", ⟨32, false⟩), ("ui64", ⟨64, false⟩)]

def formatEffects (name : String) (f : Ieee.Format) : List (String × Effect) :=
  [("add", floatBinary f.add), ("sub", floatBinary f.sub), ("mul", floatBinary f.mul),
    ("div", floatBinary f.div), ("muladd", floatTernary f.mulAdd), ("sqrt", floatUnary f.sqrt),
    ("eq", floatCompare f.eq), ("le", floatCompare (f.le false)), ("lt", floatCompare (f.lt false)),
    ("le_quiet", floatCompare (f.le true)), ("lt_quiet", floatCompare (f.lt true)),
    ("roundToInt", fun _ => throw .unfinished)].map (fun (n, e) => ("softfloat_" ++ name ++ n, e))
  ++ (formats.filter (fun t => t.1 != name)).map (fun (n, t) =>
    ("softfloat_" ++ name ++ "to" ++ n, floatUnary (f.convert t)))
  ++ integerTypes.map
    (fun (n, t) => ("softfloat_" ++ name ++ "to" ++ n, floatUnary (f.toInteger t)))
  ++ integerTypes.map
    (fun (n, t) => ("softfloat_" ++ n ++ "to" ++ name, floatUnary (f.ofInteger t)))

def floatEffects : List (String × Effect) := formats.flatMap (fun (n, f) => formatEffects n f)

/-! ### Memory -/

/-- The bytes of an access one by one, the highest first, as one vector. -/
def readByteWise (a : UInt64) (fetch : Bool) : Nat → Option Bits → RunM (Option Bits)
  | 0, acc => pure acc
  | n + 1, acc => do
    let b ← RunM.ofExcept (Bits.mkSmall 8 (← RunM.readMemory (a + n.toUInt64) 1 fetch))
    match acc with
    | none => readByteWise a fetch n (some b)
    | some v => do readByteWise a fetch n (some (← RunM.ofExcept (v.append b)))

/-- Writes the bytes of a vector one by one, the lowest first. -/
def writeByteWise (a : UInt64) (data : Bits) : Nat → Nat → RunM Unit
  | 0, start => if start == data.width then pure () else throw .assertion
  | n + 1, start => do
    let byte ← RunM.ofExcept (data.subrangeWord (start + 7) start)
    RunM.writeMemory (a + (start / 8).toUInt64) 1 byte
    writeByteWise a data n (start + 8)

/-- Sizes that one access can have. -/
def isAccessSize (n : Int) : Bool := n == 1 || n == 2 || n == 4 || n == 8

def isAddressSize (d : Datum) : Bool := d.same (.int 64) || d.same (.int 32)

/-- The address that a boxed value holds. -/
def addressOf : Datum → RunM UInt64
  | .bits b => RunM.ofExcept (b.toUnsigned 0)
  | .integer z => pure z.toUnsigned
  | _ => throw .internal

def readPlatform : Effect
  | [kind, size, a, n] => do
    if !isAddressSize size then throw .assertion
    let a ← addressOf a
    let n : Int ← operand n
    let fetch := kind.same (← get).fetchKind
    if isAccessSize n then
      return .bits (← RunM.ofExcept (Bits.mkSmall (n * 8) (← RunM.readMemory a n fetch)))
    match ← readByteWise a fetch n.toNat none with
    | some b => return .bits b
    | none => return .none
  | _ => throw .internal

def writePlatform : Effect
  | [_, size, a, n, data] => do
    if !isAddressSize size then throw .assertion
    let data : Bits ← operand data
    let n : Int ← operand n
    if (data.width : Int) != n * 8 then throw .assertion
    let a ← addressOf a
    if isAccessSize n then
      RunM.writeMemory a n (← RunM.ofExcept (data.toUnsigned 0))
    else writeByteWise a data n.toNat 0
    return .bool true
  | _ => throw .internal

/-- Takes machine integers out of their boxes first. -/
def boxedEffect (name : String) (e : Effect) : List (String × Effect) :=
  match wordForm? name with
  | some (ps, form) => [(name, fun ds => do e (← RunM.ofExcept (unboxed ps ds))), (form, e)]
  | none => [(name, e)]

def memoryEffects : List (String × Effect) :=
  boxedEffect "platform_read_mem" readPlatform ++
    boxedEffect "platform_write_mem" writePlatform ++ [
  ("platform_read_mem_o_i_bv_i", effect fun (kind _ : Datum) a n => get >>= fun w =>
    RunM.readMemory a n (kind.same w.fetchKind)),
  ("read_mem", effect fun a => RunM.readMemory a 1 false),
  ("write_mem", effect fun a v => RunM.writeMemory a 1 v *> pure true)]

/-! ### The whole table -/

/-- Primitives that are named and left open. -/
def openNames : List String := [
  "plat_enable_dirty_update", "plat_enable_misaligned_access", "plat_enable_pmp",
  "print_mem_access", "print_platform", "print_reg", "print_string", "string_drop", "string_take",
  "string_startswith", "sub_nat", "wakeup_request", "set_slice_int", "undefined_range",
  "read_register_from_vector", "write_register_from_vector", "uint64c"]

def otherEffects : List (String × Effect) := [
  ("reg_deref", fun
    | [.place _ slot] => RunM.slot slot
    | [d] => pure d
    | _ => throw .internal),
  ("sail_assert", effect fun (c : Bool) (_ : Datum) =>
    (if c then pure () else throw .unfinished : RunM Unit))]

def effects : List (String × Effect) :=
  openNames.map (fun n => (n, fun _ => throw .unfinished))
    ++ printEffects ++ listEffects ++ floatEffects ++ memoryEffects ++ otherEffects

/-- Comparisons of integers refuse plain integers in the machine range. -/
def refusesPlain (name : String) (args : List Datum) : Bool :=
  (name == "lteq" || name == "lt" || name == "gt" || name == "gteq")
    && match args with
      | [.int a, .int b] => Integer.fitsWord a && Integer.fitsWord b
      | _ => false

/-- Functions as primitives that leave the state alone. -/
def lifted (fs : List (String × Function)) : List (String × Effect) :=
  fs.map (fun (n, f) => (n, fun ds => RunM.ofExcept (f ds)))

def effectTable : Std.HashMap String Effect := Std.HashMap.ofList (lifted functions ++ effects)

def find? (name : String) : Option Effect :=
  if name == "eq" then some (fun _ => throw .assertion)
  else (effectTable[name]?).map fun e args =>
    if refusesPlain name args then throw .assertion else e args

def call (name : String) (args : List Datum) : RunM Datum := do (← RunM.ofOption (find? name)) args

end Jib.Primitive
