import Jib.Platform.Riscv.Boot

/-!
# Primitives of the RISC-V machine

Access to the settings, to memory, to the reservation of an address, and to the terminal.
-/

namespace Jib.Riscv

open Primitive (effect operand addressOf)
open Platform (service constantService)

/-- Primitives that read a setting. -/
def settingReaders : List (String × String) := [
  ("sys_enable_rvc", "rv_enable_rvc"),
  ("sys_enable_next", "rv_enable_next"),
  ("sys_enable_fdext", "rv_enable_fdext"),
  ("sys_enable_zfinx", "rv_enable_zfinx"),
  ("sys_enable_writable_misa", "rv_enable_writable_misa"),
  ("sys_enable_vext", "rv_enable_vext"),
  ("sys_enable_writable_fiom", "rv_enable_writable_fiom"),
  ("plat_enable_dirty_update", "rv_enable_dirty_update"),
  ("plat_enable_misaligned_access", "rv_enable_misaligned"),
  ("plat_mtval_has_illegal_inst_bits", "rv_mtval_has_illegal_inst_bits"),
  ("plat_enable_pmp", "rv_enable_pmp"),
  ("plat_ram_base", "rv_ram_base"),
  ("plat_ram_size", "rv_ram_size"),
  ("plat_rom_base", "rv_rom_base"),
  ("plat_rom_size", "rv_rom_size"),
  ("plat_clint_base", "rv_clint_base"),
  ("plat_clint_size", "rv_clint_size"),
  ("plat_htif_tohost", "rv_htif_tohost"),
  ("get_config_print_instr", "config_print_instr"),
  ("get_config_print_reg", "config_print_reg"),
  ("get_config_print_mem", "config_print_mem_access"),
  ("get_config_print_platform", "config_print_platform")]

/-- Primitives that print a line if a setting says so. -/
def printers : List (String × String) := [
  ("print_instr", "config_print_instr"),
  ("print_reg", "config_print_reg"),
  ("print_mem_access", "config_print_mem_access"),
  ("print_platform", "config_print_platform")]

def printIf (setting : String) (d : Datum) : RunM Unit := do
  if (← RunM.setting setting).truth then RunM.print (d.message ++ "\n")

/-! ### Memory -/

def readBoxed : Service
  | _, [_, _, a, n] => do
    let n : Int ← operand n
    if n > 8 then throw .assertion
    let a ← addressOf a
    return .bits (← RunM.ofExcept (Bits.mkSmall (n * 8) (← RunM.readMemory a n false)))
  | _, _ => throw .internal

def writeBoxed : Service
  | _, [_, size, a, n, data] => do
    let n ← RunM.ofExcept n.toWord
    if n > 8 then throw .assertion
    if !size.same (.int 64) then throw .assertion
    let data : Bits ← operand data
    if (data.width : Int) != n * 8 then throw .assertion
    let a ← addressOf a
    RunM.writeMemory a n (← RunM.ofExcept (data.toUnsigned 0))
    return .bool true
  | _, _ => throw .internal

/-! ### Reservations -/

/-- The bits of an address that count. -/
def addressMask (wide : Bool) : UInt64 := if wide then 0xffffffffffffffff else 0xffffffff

def reserve (d : Datum) : RunM Unit := do
  RunM.setSetting "reservation" d
  RunM.setSetting "reservation_valid" (.bool true)

def matchReservation (wide : Bool) (d : Datum) : RunM Datum := do
  let valid ← RunM.setting "reservation_valid"
  if !valid.truth then return valid
  let a : UInt64 ← operand (← RunM.setting "reservation")
  let b : UInt64 ← operand d
  return .bool (a &&& addressMask wide == b &&& addressMask wide)

/-! ### The rest -/

/-- Writes a character to the terminal. -/
def writeTerminal (w : UInt64) : RunM Unit :=
  RunM.print (String.singleton (Char.ofNat (w.toNat % 256)))

/-- Asks the program for the width of an access. -/
def noteAccess : Service
  | ask, [a, width, _, _] => do
    let _ ← Platform.signedWord (← ask (.function "func_zword_width_bytes" [width]))
    let _ ← Platform.signedWord a
    return .none
  | _, _ => throw .internal

def initModel (wide : Bool) (ask : Answers) (entry : UInt64) : RunM Unit := do
  let _ ← ask (.function "func_zinit_model" [.unit])
  resetTo wide entry

def services (wide : Bool) : List (String × Service) :=
  settingReaders.map (fun (n, s) => (n, constantService (RunM.setting s)))
  ++ printers.map (fun (n, s) => (n, fun _ => effect (printIf s)))
  ++ ((Primitive.wordForm? "platform_read_mem").map (fun (ps, form) =>
      [("platform_read_mem", (fun ask args => do
        readBoxed ask (← RunM.ofExcept (Primitive.unboxed ps args)) : Service)),
        (form, readBoxed)])).getD []
  ++ [
    ("platform_read_mem_o_i_bv_i", fun _ => effect fun (_ _ : Datum) a n =>
      RunM.readMemory a n false),
    ("platform_write_mem", writeBoxed),
    ("write_mem", fun _ => effect fun a v => RunM.writeMemory a 1 v *> pure true),
    ("load_reservation", fun _ => effect reserve),
    ("match_reservation", fun _ => effect (matchReservation wide)),
    ("cancel_reservation", constantService do
      RunM.setSetting "reservation_valid" (.bool false)
      return .unit),
    ("speculate_conditional", constantService (pure (.bool true))),
    ("check_mask", service 0 (fun _ _ => pure (.word (addressMask wide)))),
    ("is_32bit_model", service 0 (fun _ _ => pure (.bool (!wide)))),
    ("plat_term_write", fun _ => effect writeTerminal),
    ("plat_insns_per_tick", constantService (pure .none)),
    ("memea", constantService (pure .unit)),
    ("print_string", fun _ => effect fun (d : Datum) =>
      RunM.print ("<object> " ++ d.message ++ "\n")),
    ("promote_addr_region", noteAccess),
    ("init_sail", fun ask => effect fun a => initModel wide ask a *> pure Datum.none),
    ("init_sail_reset_vector", fun _ => effect fun a => resetTo wide a *> pure Datum.none)]

/-- The RISC-V platform with registers of 64 or of 32 bits. -/
def platform (wide : Bool) : Platform where
  primitive? := Platform.primitives (services wide)
  settings := settings wide

end Jib.Riscv
