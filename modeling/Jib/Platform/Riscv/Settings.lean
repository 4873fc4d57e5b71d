import Jib.Platform.Common

/-!
# Settings of the RISC-V machine

The memory map, the switches for parts of the architecture, and what is printed.
-/

namespace Jib.Riscv

/-- What a new machine is set to. -/
def settings (wide : Bool) : List (String × Datum) := [
  ("rv64", .bool wide),
  ("_mem_addr_range_next", .int (-1)),
  ("rv_enable_pmp", .bool false),
  ("rv_enable_zfinx", .bool false),
  ("rv_enable_rvc", .bool true),
  ("rv_enable_next", .bool false),
  ("rv_enable_writable_misa", .bool true),
  ("rv_enable_fdext", .bool true),
  ("rv_enable_dirty_update", .bool false),
  ("rv_enable_misaligned", .bool false),
  ("rv_enable_vext", .bool true),
  ("rv_enable_writable_fiom", .bool true),
  ("rv_mtval_has_illegal_inst_bits", .bool false),
  ("rv_ram_base", .word 0x80000000),
  ("rv_ram_size", .word 0x4000000),
  ("rv_rom_base", .word 0x1000),
  ("rv_rom_size", .word 0x100),
  ("rv_clint_base", .word 0x2000000),
  ("rv_clint_size", .word 0xc0000),
  ("rv_htif_tohost", .word 0x80001000),
  ("rv_insns_per_tick", .int 100),
  ("dtb", .none),
  ("term_fd", .int 1),
  ("reservation", .word 0),
  ("reservation_valid", .bool false),
  ("dump_dict", .none),
  ("config_print_instr", .bool true),
  ("config_print_reg", .bool true),
  ("config_print_mem_access", .bool true),
  ("config_print_platform", .bool true),
  ("config_print_rvfi", .bool false),
  ("cpu_hz", .int 1000000000)]

def settingNumber (name : String) : RunM Int := do RunM.number (← RunM.setting name)

/-! ### Regions of memory -/

def sum (a b : Datum) : RunM Datum := Exec.arithmetic "+" a b

/-- The regions of the address space, as machine words with sign. -/
def regions : RunM (List (Int × Int)) := do
  let rom ← RunM.setting "rv_rom_base"
  let clint ← RunM.setting "rv_clint_base"
  let ram ← RunM.setting "rv_ram_base"
  let host ← RunM.setting "rv_htif_tohost"
  let bounds := [
    (rom, ← sum rom (← RunM.setting "rv_rom_size")),
    (clint, ← sum clint (← RunM.setting "rv_clint_size")),
    (ram, host),
    (host, ← sum host (.int 16)),
    (← sum host (.int 16), ← sum ram (← RunM.setting "rv_ram_size"))]
  bounds.mapM (fun (a, b) => do return (← Platform.signedWord a, ← Platform.signedWord b))

/-- The setting that holds the regions. -/
def regionsName : String := "_mem_ranges"

/-- Works out the regions; each has to end at eight or above. -/
def initRegions : RunM (List (Int × Int)) := do
  let rs ← regions
  let entries ← rs.mapM (fun (a, b) => RunM.newList #[.int a, .int b])
  RunM.setSetting regionsName (← RunM.newList entries.toArray)
  if rs.all (fun r => r.2 ≥ 8) then return rs
  throw .assertion

/-- The regions that were worked out last. -/
def knownRegions : RunM (List (Int × Int)) := do
  let entries ← RunM.items (← RunM.setting regionsName)
  entries.toList.mapM (fun e => do
    let [.int a, .int b] := (← RunM.items e).toList | throw .internal
    return (a, b))

/-- The first region that an access lies in, and minus one if there is none. -/
def regionOf (address width : Int) : List (Int × Int) → Int
  | [] => -1
  | (a, b) :: rest =>
    if a ≤ address && address + width < b then 0
    else
      let i := regionOf address width rest
      if i < 0 then i else i + 1

/-- Notes the region of an access. -/
def observe (address width : Int) : RunM Int := do
  let i := regionOf address width (← knownRegions)
  RunM.setSetting "_mem_addr_range_next" (.int i)
  return i

end Jib.Riscv
