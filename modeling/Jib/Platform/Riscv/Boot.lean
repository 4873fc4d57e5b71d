import Jib.DeviceTree
import Jib.Platform.Riscv.Settings

/-!
# Starting the RISC-V machine

The device tree that describes the machine, and the read-only memory that it starts from: eight
words of code and data, the device tree, and zeros up to the end of the page.
-/

namespace Jib.Riscv

open scoped Jib.Power

/-! ### The device tree -/

def bytes (s : String) : Bytes := Bytes.ofText s

/-- A number that a tree can hold. -/
def treeNumber (name : String) : RunM Nat := do
  let n ← settingNumber name
  if n < 0 then throw .internal
  return n.toNat

/-- The frequency of the clock, in ticks. -/
def clockFrequency : RunM Nat := do
  let n ← settingNumber "rv_insns_per_tick"
  if n == 0 then throw (.divisionByZero none)
  let f := (← settingNumber "cpu_hz").fdiv n
  if f < 0 then throw .internal
  return f.toNat

/-- The tree that describes the machine. -/
def deviceTree (wide : Bool) : RunM Bytes := do
  let frequency ← settingNumber "cpu_hz"
  let timebase ← clockFrequency
  if frequency < 0 then throw .internal
  let ramBase ← treeNumber "rv_ram_base"
  let ramSize ← treeNumber "rv_ram_size"
  let clintBase ← treeNumber "rv_clint_base"
  let clintSize ← treeNumber "rv_clint_size"
  let isa := if wide then "rv64imac" else "rv32imac"
  let mmu := if wide then "riscv,sv39" else "riscv,sv32"
  RunM.ofExcept do
    let t : DeviceTree := {}
    let t ← t.openPlain (bytes "")
    let t ← t.addNumber (bytes "#address-cells") 2
    let t ← t.addNumber (bytes "#size-cells") 2
    let t ← t.addText (bytes "compatible") (bytes "ucbbar,spike-bare-dev")
    let t ← t.addText (bytes "model") (bytes "ucbbar,spike-bare")
    let t ← t.openPlain (bytes "cpus")
    let t ← t.addNumber (bytes "#address-cells") 1
    let t ← t.addNumber (bytes "#size-cells") 0
    let t ← t.addNumber (bytes "timebase-frequency") timebase
    let t ← t.openPlain (bytes "cpu@0")
    let t ← t.addText (bytes "device_type") (bytes "cpu")
    let t ← t.addNumber (bytes "reg") 0
    let t ← t.addText (bytes "status") (bytes "okay")
    let t ← t.addText (bytes "compatible") (bytes "riscv")
    let t ← t.addText (bytes "riscv,isa") (bytes isa)
    let t ← t.addText (bytes "mmu-type") (bytes mmu)
    let t ← t.addNumber (bytes "clock-frequency") frequency.toNat
    let (interrupts, t) ← t.openWithHandle (bytes "interrupt-controller")
    let t ← t.addNumber (bytes "#interrupt-cells") 1
    let t ← t.addEmpty (bytes "interrupt-controller")
    let t ← t.addText (bytes "compatible") (bytes "riscv,cpu-intc")
    let t ← t.close
    let t ← t.close
    let t ← t.close
    let t ← t.openPlain (bytes ("memory@" ++ Text.hexDigits ramBase))
    let t ← t.addText (bytes "device_type") (bytes "memory")
    let t ← t.addLongNumbers (bytes "reg") [ramBase, ramSize]
    let t ← t.close
    let t ← t.openPlain (bytes "soc")
    let t ← t.addNumber (bytes "#address-cells") 2
    let t ← t.addNumber (bytes "#size-cells") 2
    let t ← t.addTexts (bytes "compatible") [bytes "ucbbar,spike-bare-soc", bytes "simple-bus"]
    let t ← t.addEmpty (bytes "ranges")
    let t ← t.openPlain (bytes ("clint@" ++ Text.hexDigits clintBase))
    let t ← t.addText (bytes "compatible") (bytes "riscv,clint0")
    let t ← t.addNumbers (bytes "interrupts-extended") [interrupts, 3, interrupts, 7]
    let t ← t.addLongNumbers (bytes "reg") [clintBase, clintSize]
    let t ← t.close
    let t ← t.close
    let t ← t.openPlain (bytes "htif")
    let t ← t.addText (bytes "compatible") (bytes "ucb,htif0")
    let t ← t.close
    let t ← t.close
    t.blob

/-- Makes the tree and keeps it for the next start. -/
def createDeviceTree (wide : Bool) : RunM Bytes := do
  let bs ← deviceTree wide
  RunM.setSetting "dtb" (.text bs.text)
  return bs

/-! ### The read-only memory -/

/-- Where the machine starts. -/
def resetAddress : UInt64 := 0x1000

def pageSize : Nat := 0x1000

/-- The words at the reset address: they load the address behind them and jump there. -/
def resetWords (wide : Bool) (entry : UInt64) : List Nat := [
  0x297,
  0x28593 + 32 * 2 ^ (20 : Nat),
  0xf1402573,
  if wide then 0x0182b283 else 0x0182a283,
  0x28067,
  0,
  entry.toNat % 2 ^ (32 : Nat),
  entry.toNat / 2 ^ (32 : Nat)]

/-- All bytes of the read-only memory. -/
def romBytes (wide : Bool) (entry : UInt64) (blob : Bytes) : Bytes :=
  let used := (resetWords wide entry).flatMap (Bytes.ofNatLow 4) ++ blob
  used ++ List.replicate ((pageSize - used.length % pageSize) % pageSize) 0

/-- Writes bytes one after the other. -/
def writeBytes : UInt64 → Bytes → RunM Unit
  | _, [] => pure ()
  | a, b :: bs => do
    RunM.writeMemory a 1 b.toUInt64
    writeBytes (a + 1) bs

/-- The device tree that a setting holds. -/
def blobOf : Datum → Bytes
  | .text s => Bytes.ofText s
  | _ => []

/-- Goes to the start of the read-only memory; its size is set if it is another one. -/
def enterRom (size : Nat) : RunM Unit := do
  if !(← RunM.setting "rv_rom_size").same (.int size) then
    RunM.setSetting "rv_rom_size" (.word size.toUInt64)
  RunM.setSlot "_reg_zPC" (.word resetAddress)

/-- Fills the read-only memory and goes to its start. -/
def resetTo (wide : Bool) (entry : UInt64) : RunM Unit := do
  let rom := romBytes wide entry (blobOf (← RunM.setting "dtb"))
  writeBytes resetAddress rom
  enterRom rom.length

end Jib.Riscv
